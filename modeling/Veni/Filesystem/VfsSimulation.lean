import Veni.Filesystem.VfsDirectories
import Veni.Filesystem.VfsFiles

/-! Every call without unlinking is one step on byte strings and offsets. -/

namespace Veni.Filesystem

open Veni.Libc Veni.Lib.Tokens Veni.Lib.NameGraph Veni.Lib.Transition

namespace Ramfs

lemma isOpenFile_rmdir {r : Ramfs} (h : Sound r.inodes) (path : CString) {i : ℕ}
    (hi : r.isOpenFile i = true) : (r.ramfsRmdir path).2.isOpenFile i = true := by
  rcases (rmdir_cases h path).2 with ⟨_, hs, _⟩ | ⟨p, e, he, _, hs⟩
  · rw [isOpenFile_iff, hs, ← isOpenFile_iff]
    exact hi
  · rw [isOpenFile_iff] at hi ⊢
    have hie : i ≠ e.inodeIdx := by
      rintro rfl
      rw [he.dir.2.2] at hi
      exact absurd hi.2.2 (by simp)
    have hip : i ≠ p := by
      rintro rfl
      rw [he.found.dir.2.2] at hi
      exact absurd hi.2.2 (by simp)
    rw [hs, removed_of_ne hie hip]
    exact hi

end Ramfs

namespace Vfs

lemma setFile_self (v : Vfs) (fd : ℕ) : v.setFile fd (v.files fd) = v := by
  rw [setFile, Function.update_eq_self]

section Simulates

variable {v w : Vfs} {root fs : ℕ} {a : Files}

lemma Simulates.setFile (h : Simulates v root fs a) {fd : ℕ} (hfd : fd < vfsMaxOpen) {f : VfsFile}
    (hf : f.used = true → ∃ i, f.node = some i ∧ IsNode v root i ∧ (v.nodes i).type = .file) :
    Simulates (v.setFile fd f) root fs
      (a.set fd (if f.used = true then f.node.map fun n => (n, f.offset) else none)) :=
  ⟨h.ready.files rfl rfl rfl, h.attached.setFile fd hf, h.refines.setFile h.ready hfd f⟩

lemma Simulates.hand (h : Simulates v root fs a) {fd i : ℕ} (hfd : FreeFd v fd)
    (hi : IsNode v root i) (ht : (v.nodes i).type = .file) :
    a.Free fd ∧ Simulates (v.setFile fd ⟨some i, 0, true⟩) root fs (a.set fd (some (i, 0))) := by
  refine ⟨⟨hfd.1, ?_⟩, h.setFile hfd.1 fun _ => ⟨i, rfl, hi, ht⟩⟩
  rw [h.refines.descriptors, descriptor, isOpen, hfd.2.1]
  simp

lemma Simulates.createDir (h : Simulates v root fs a) {current : ℕ}
    (hc : current < v.ramfs.heap.calls) (path : CBuffer 256) (t : CString) :
    Simulates (createDir v (rootMount root fs) current path t).2 root fs a := by
  have hdir := h.mkdir (appendPath path t).val
  rcases createDir_cases h.ready.sound (rootMount root fs) hc path t with
    ⟨_, he⟩ | ⟨_, fsFd, u, he, hnew⟩
  · rw [he]
    exact hdir.failedMalloc
  · rw [he]
    refine hdir.newDir hnew ?_ rfl rfl
    rw [(Ramfs.mkdir_cases h.ready.sound (appendPath path t).val).1]
    exact hc

lemma Simulates.createdFile (h : Simulates v root fs a) {current idx : ℕ} {rel t : CString}
    (hc : current < v.ramfs.heap.calls) (hres : (v.ramfs.ramfsCreate rel).1 = some idx)
    (hnew : NewNode { v with ramfs := (v.ramfs.ramfsCreate rel).2 } w current
      ⟨strncpy 31 t, .file, (rootMount root fs).fs, idx, some current, []⟩) :
    a.Unknown v.ramfs.heap.calls ∧ Files.Extends a.lookup (fileAt w) v.ramfs.heap.calls ∧
      IsNode w root v.ramfs.heap.calls ∧ (w.nodes v.ramfs.heap.calls).type = .file ∧
      Simulates w root fs
        ⟨fileAt w, Function.update a.contents v.ramfs.heap.calls [], a.descriptors⟩ := by
  have hheap := (Ramfs.create_cases h.ready.sound rel).1
  obtain ⟨hfree, hopen⟩ := (Ramfs.create_open h.ready.sound rel).2 idx hres
  have hempty := (h.ready.storage.create h.ready.sound rel).new idx hfree (Ramfs.isOpenFile_used hopen)
  have hmade := (h.create rel).newFile hnew (by rw [hheap]; exact hc) rfl hopen
    (fun i hi ht he => by
      have hused := Ramfs.isOpenFile_used (h.attached.inode i hi ht)
      simp only at he
      rw [he, hfree] at hused
      cases hused) hempty
  have hself := hnew.self
  have hparent := hnew.parent
  simp only [hheap] at hmade hself hparent
  refine ⟨hmade.1, hmade.2.1, .inr ⟨current, ?_⟩, by rw [hself], hmade.2.2⟩
  rw [hparent]
  simp

lemma Simulates.createFile (h : Simulates v root fs a) {current : ℕ}
    (hc : current < v.ramfs.heap.calls) {memory : Prop} {path rel t : CString} {fd : Option ℕ}
    (he : createFile v (rootMount root fs) current rel (some t) = (fd, w)) :
    ∃ a', Files.Step memory a (.create path, .fd fd) a' ∧ Simulates w root fs a' := by
  have hends := createFile_ends h.ready.sound (rootMount root fs) hc rel t
  rw [he] at hends
  cases hends with
  | taken => exact ⟨a, .uncreated, h⟩
  | refused => exact ⟨a, .uncreated, h.create rel⟩
  | noMemory => exact ⟨a, .uncreated, (h.create rel).failedMalloc⟩
  | noDescriptor _ hres _ hnew =>
    obtain ⟨hunknown, hextends, _, _, hsim⟩ := h.createdFile hc hres hnew
    exact ⟨_, .unopened hunknown hextends, hsim⟩
  | opened _ hres _ hnew hfd =>
    obtain ⟨hunknown, hextends, hnode, htype, hsim⟩ := h.createdFile hc hres hnew
    obtain ⟨hfree, hsim'⟩ := hsim.hand (by rw [FreeFd, hnew.files]; exact hfd) hnode htype
    exact ⟨_, .created hunknown hextends hfree, hsim'⟩

lemma Simulates.vfsCreate (h : Simulates v root fs a) {memory : Prop} {path : CString} {fd : Option ℕ}
    (he : v.vfsCreate path = some (fd, w)) :
    ∃ a', Files.Step memory a (.create path, .fd fd) a' ∧ Simulates w root fs a' :=
  (create_preserves (I := fun u => Simulates u root fs a)
    (J := fun fd u => ∃ a', Files.Step memory a (.create path, .fd fd) a' ∧ Simulates u root fs a')
    (fun _ next hu => hu.cursor next) (fun _ _ path t _ hu hc => hu.createDir hc path t)
    (fun _ _ _ _ _ _ _ hu hc hfile => hu.createFile hc hfile) (fun _ hu => ⟨a, .uncreated, hu⟩)
    h.ready h he).2

lemma Simulates.opened (h : Simulates v root fs a) {fd : ℕ} (hopen : v.isOpen fd = true) :
    ∃ i, fd < vfsMaxOpen ∧ (v.files fd).used = true ∧ (v.files fd).node = some i ∧ IsNode v root i ∧
      (v.nodes i).type = .file ∧ v.fileNode fd = some (v.nodes i) ∧
      a.descriptors fd = some (i, (v.files fd).offset) ∧
      v.ramfs.isOpenFile (v.nodes i).fsFd = true ∧ a.contents i = v.ramfs.contents (v.nodes i).fsFd := by
  obtain ⟨i, hnode, hi, ht⟩ := h.attached.descriptor fd hopen
  have hand := hopen
  simp only [isOpen, Bool.and_eq_true, decide_eq_true_eq] at hand
  refine ⟨i, hand.1, hand.2, hnode, hi, ht, ?_, ?_, h.attached.inode i hi ht, h.refines.contents i hi ht⟩
  · rw [fileNode, hnode, Option.bind_some, if_pos (h.attached.live i hi)]
  · rw [h.refines.descriptors, descriptor, if_pos hopen, hnode, Option.map_some]

lemma Simulates.closed (h : Simulates v root fs a) {fd : ℕ} (hopen : v.isOpen fd = false) :
    a.descriptors fd = none := by
  rw [h.refines.descriptors, descriptor, hopen]
  simp

lemma Simulates.moved (h : Simulates v root fs a) {fd i : ℕ} (hfd : fd < vfsMaxOpen)
    (hu : (v.files fd).used = true) (hnode : (v.files fd).node = some i) (hi : IsNode v root i)
    (ht : (v.nodes i).type = .file) (offset : ℕ) :
    Simulates (v.setFile fd { v.files fd with offset := offset }) root fs (a.set fd (some (i, offset))) := by
  have hset := h.setFile (f := { v.files fd with offset := offset }) hfd fun _ => ⟨i, hnode, hi, ht⟩
  simp only [hu, hnode, if_true, Option.map_some] at hset ⊢
  exact hset

lemma Simulates.written (h : Simulates v root fs a) {r : Ramfs} {i : ℕ} {c : List UInt8}
    (hi : IsNode v root i) (ht : (v.nodes i).type = .file)
    (hw : Ramfs.Written v.ramfs r (v.nodes i).fsFd c) :
    Simulates { v with ramfs := r } root fs { a with contents := Function.update a.contents i c } := by
  have hready := h.ready.written hw
  refine ⟨hready, h.attached.ramfs h.ready.rooted hw.keeps fun j hj => ?_, fun path => ?_,
    fun j hj htj => ?_, h.refines.descriptors⟩
  · rw [Ramfs.isOpenFile_iff] at hj ⊢
    rw [(hw.sameTree j).1, (hw.sameTree j).2.1]
    exact hj
  · rw [hready.fileAt_eq, fileWalk_congr (v := v) (w := { v with ramfs := r }) rfl, ← h.ready.fileAt_eq]
    exact h.refines.lookup path
  · by_cases hji : j = i
    · subst hji
      simp only [Function.update_self]
      exact hw.self.symm
    · have hne : (v.nodes j).fsFd ≠ (v.nodes i).fsFd := fun hfd =>
        hji (h.attached.distinct j i hj hi htj ht hfd)
      simp only [Function.update_of_ne hji]
      rw [hw.other _ hne (Ramfs.isOpenFile_used (h.attached.inode j hj htj))]
      exact h.refines.contents j hj htj

lemma Simulates.vfsOpen (h : Simulates v root fs a) (path : CString)
    (hfile : ∀ i, (v.vfsResolve path).1 = some i → (v.nodes i).type = .file) :
    ∃ a', Files.Step (Memory v 0) a (.open path, .fd (v.vfsOpen path).1) a' ∧
      Simulates (v.vfsOpen path).2 root fs a' := by
  have hlookup := h.refines.lookup path
  obtain ⟨next, ⟨hnone, he⟩ | ⟨i, hi, ⟨hfull, he⟩ | ⟨fd, hfd, he⟩⟩⟩ := open_cases v path
  · rw [he]
    rw [fileAt, hnone] at hlookup
    exact ⟨a, .notOpened (.inl hlookup), h.cursor next⟩
  · rw [he]
    refine ⟨a, .notOpened (.inr fun fd hfree => ?_), h.cursor next⟩
    have hopen : v.isOpen fd = true := by simp [isOpen, hfree.1, hfull fd hfree.1]
    obtain ⟨j, _, _, _, _, _, _, hd, _⟩ := h.opened hopen
    rw [hfree.2] at hd
    cases hd
  · rw [he]
    have ht := hfile i hi
    rw [fileAt, hi, Option.bind_some, if_pos ht] at hlookup
    have hp : path.head? = some slash := by
      by_contra hp
      rw [resolve_of_not_absolute hp] at hi
      cases hi
    rw [h.ready.mounted.resolve_eq hp] at hi
    obtain ⟨hfree, hsim⟩ := (h.cursor next).hand (show FreeFd (v.setCursor next) fd from hfd)
      (isNode_of_walk hi) ht
    exact ⟨_, .opened hlookup hfree, hsim⟩

lemma Simulates.vfsRead (h : Simulates v root fs a) (fd n : ℕ) :
    ∃ bs w a', v.vfsRead fd n = some (bs, w) ∧ Files.Step (Memory v 0) a (.read fd n, .bytes bs) a' ∧
      Simulates w root fs a' := by
  cases hopen : v.isOpen fd with
  | false => exact ⟨[], v, a, if_pos hopen, .notRead (h.closed hopen), h⟩
  | true =>
    obtain ⟨i, hfd, hu, hnode, hi, ht, hfile, hd, hinode, hc⟩ := h.opened hopen
    have hread := h.ready.storage.read hinode n (v.files fd).offset
    rw [← hc] at hread
    refine ⟨_, _, _, ?_, .read hd, h.moved hfd hu hnode hi ht _⟩
    simp only [Vfs.vfsRead, hopen, Bool.true_eq_false, if_false, hfile, Option.bind_some, hread,
      Option.map_some]

lemma Simulates.vfsWrite (h : Simulates v root fs a) {fd : ℕ} {buf : List UInt8}
    (hlt : v.isOpen fd = true → (v.files fd).offset + buf.length < 2 ^ 32) :
    ∃ n w a', v.vfsWrite fd buf = some (n, w) ∧ Files.Step (Memory v 0) a (.write fd buf, .count n) a' ∧
      Simulates w root fs a' := by
  cases hopen : v.isOpen fd with
  | false => exact ⟨0, v, a, if_pos hopen, .noFile (h.closed hopen), h⟩
  | true =>
    obtain ⟨i, hfd, hu, hnode, hi, ht, hfile, hd, hinode, hc⟩ := h.opened hopen
    rcases h.ready.storage.write hinode (hlt hopen) with ⟨he, hgrow, hout⟩ | ⟨r, he, hw⟩
    · refine ⟨0, _, a, ?_, .notWritten hd (by rw [hc]; exact hgrow) (not_not.mpr hout), h.failedMalloc⟩
      simp only [Vfs.vfsWrite, hopen, Bool.true_eq_false, if_false, hfile, Option.bind_some, he,
        Option.map_some]
      exact congrArg (fun u => some (0, u)) (v.failedMalloc.setFile_self fd)
    · rw [← hc] at hw
      refine ⟨buf.length, _, _, ?_, .written hd,
        (h.written hi ht hw).moved (v := { v with ramfs := r }) hfd hu hnode hi ht _⟩
      simp only [Vfs.vfsWrite, hopen, Bool.true_eq_false, if_false, hfile, Option.bind_some, he,
        Option.map_some]

lemma Simulates.vfsLseek (h : Simulates v root fs a) (fd offset : ℕ) :
    ∃ a', Files.Step (Memory v 0) a (.lseek fd offset, .status (v.vfsLseek fd offset).1) a' ∧
      Simulates (v.vfsLseek fd offset).2 root fs a' := by
  cases hopen : v.isOpen fd with
  | false =>
    rw [Vfs.vfsLseek, if_pos hopen]
    exact ⟨a, .notSought (h.closed hopen), h⟩
  | true =>
    obtain ⟨i, hfd, hu, hnode, hi, ht, _, hd, _⟩ := h.opened hopen
    rw [Vfs.vfsLseek, if_neg (by simp [hopen])]
    exact ⟨_, .sought hd, h.moved hfd hu hnode hi ht offset⟩

lemma Simulates.vfsClose (h : Simulates v root fs a) (fd : ℕ) :
    ∃ ok w a', v.vfsClose fd = some (ok, w) ∧ Files.Step (Memory v 0) a (.close fd, .status ok) a' ∧
      Simulates w root fs a' := by
  cases hopen : v.isOpen fd with
  | false => exact ⟨false, v, a, if_pos hopen, .notClosed (h.closed hopen), h⟩
  | true =>
    obtain ⟨i, hfd, _, _, _, _, hfile, hd, hinode, _⟩ := h.opened hopen
    have hclose : v.ramfs.ramfsClose (v.nodes i).fsFd = true := by
      rw [Ramfs.isOpenFile_iff] at hinode
      simp [Ramfs.ramfsClose, hinode.1, hinode.2.1]
    refine ⟨true, _, _, ?_, .closed hd,
      h.setFile (f := { v.files fd with used := false }) hfd fun hf => by cases hf⟩
    simp only [Vfs.vfsClose, hopen, Bool.true_eq_false, if_false, hfile, Option.map_some, hclose,
      freeFd, if_pos hfd]

lemma Simulates.rmdir (h : Simulates v root fs a) (path : CString) :
    Simulates { v with ramfs := (v.ramfs.ramfsRmdir path).2 } root fs a :=
  h.ramfs (h.ready.sound.step (o := .rmdir path) rfl) (h.ready.storage.rmdir h.ready.sound path)
    fun _ => Ramfs.isOpenFile_rmdir h.ready.sound path

lemma Simulates.stat (h : Simulates v root fs a) (path : CString) :
    Simulates { v with ramfs := (v.ramfs.ramfsStat path).2 } root fs a := by
  obtain ⟨hi, hheap⟩ := Ramfs.findInode_inodes v.ramfs path
  rw [(stat_state v.ramfs path).2]
  refine h.ramfs (hi ▸ h.ready.sound) (h.ready.storage.same hi hheap) fun i hopen => ?_
  rw [Ramfs.isOpenFile_iff, hi, ← Ramfs.isOpenFile_iff]
  exact hopen

end Simulates

/-- Files are opened and not unlinked, and no write goes beyond 32 bits. -/
def Allowed (v : Vfs) : Op → Prop
  | .open path => ∀ i, (v.vfsResolve path).1 = some i → (v.nodes i).type = .file
  | .write fd buf => v.isOpen fd = true → (v.files fd).offset + buf.length < 2 ^ 32
  | .unlink _ => False
  | _ => True

lemma Simulates.step {v w : Vfs} {root fs : ℕ} {a : Files} {l : Op × Result}
    (h : Simulates v root fs a) (hl : Allowed v l.1) (hs : Step v l w) :
    ∃ a', Files.Step (Memory v 0) a l a' ∧ Simulates w root fs a' := by
  obtain ⟨op, res⟩ := l
  cases op with
  | create path =>
    obtain ⟨⟨fd, u⟩, hc, he⟩ := Option.map_eq_some_iff.mp hs
    cases he
    exact h.vfsCreate hc
  | «open» path =>
    cases hs
    exact h.vfsOpen path hl
  | read fd n =>
    obtain ⟨bs, u, a', hr, hstep, hsim⟩ := h.vfsRead fd n
    simp only [Step, exec, hr, Option.map_some, Option.some.injEq] at hs
    cases hs
    exact ⟨a', hstep, hsim⟩
  | write fd buf =>
    obtain ⟨n, u, a', hr, hstep, hsim⟩ := h.vfsWrite hl
    simp only [Step, exec, hr, Option.map_some, Option.some.injEq] at hs
    cases hs
    exact ⟨a', hstep, hsim⟩
  | lseek fd offset =>
    cases hs
    exact h.vfsLseek fd offset
  | close fd =>
    obtain ⟨ok, u, a', hr, hstep, hsim⟩ := h.vfsClose fd
    simp only [Step, exec, hr, Option.map_some, Option.some.injEq] at hs
    cases hs
    exact ⟨a', hstep, hsim⟩
  | unlink path => cases hl
  | mkdir path =>
    cases hs
    refine ⟨a, .mkdir, ?_⟩
    rw [h.ready.mounted.mkdir_eq]
    split
    · exact h.mkdir _
    · exact h
  | rmdir path =>
    cases hs
    refine ⟨a, .rmdir, ?_⟩
    rw [h.ready.mounted.rmdir_eq]
    split
    · exact h.rmdir _
    · exact h
  | stat path =>
    cases hs
    refine ⟨a, .stat, ?_⟩
    rw [h.ready.mounted.stat_eq]
    split
    · exact h.stat _
    · exact h

lemma Booted.isNode {v : Vfs} (h : Booted v) {i : ℕ} (hi : IsNode v 0 i) : i = 0 := by
  obtain ⟨outcome, bytes, _, hv⟩ := booted_eq h
  rcases hi with rfl | ⟨p, hp⟩
  · rfl
  · by_cases hp0 : p = 0 <;> simp [hv, hp0, powerOn] at hp

lemma Booted.not_file {v : Vfs} (h : Booted v) {i : ℕ} (hi : IsNode v 0 i) :
    (v.nodes i).type ≠ .file := by
  rw [h.isNode hi, h.ready.rooted.root_dir]
  simp

lemma Booted.simulates {v : Vfs} (h : Booted v) : Simulates v 0 0 Files.start := by
  have hready := h.ready
  have hnofile : ∀ i, IsNode v 0 i → (v.nodes i).type ≠ .file := fun i => h.not_file
  obtain ⟨outcome, bytes, _, hv⟩ := booted_eq h
  have hclosed : ∀ fd, v.isOpen fd = false := fun fd => by simp [isOpen, hv]
  refine ⟨hready, ⟨fun i hi => ?_, fun i hi j hj hd => ?_, fun i hi ht => absurd ht (hnofile i hi),
    fun i _ hi _ ht => absurd ht (hnofile i hi), fun fd hfd => ?_⟩, ⟨fun path => ?_,
    fun i hi ht => absurd ht (hnofile i hi), fun fd => ?_⟩⟩
  · rw [h.isNode hi]
    simp [isLive, hv]
  · by_cases hj0 : j = 0 <;> simp [hv, Ramfs.ramfsInit, powerOn, Ramfs.emptyInode, hj0] at hd
  · rw [hclosed] at hfd
    cases hfd
  · rw [hready.fileAt_eq]
    split
    · cases hw : fileWalk v 0 (Ramfs.components (relOf path)) with
      | none => rfl
      | some i =>
        obtain ⟨hwalk, ht⟩ := fileWalk_eq_some.mp hw
        exact absurd ht (hnofile i (isNode_of_walk hwalk))
    · rfl
  · rw [descriptor, hclosed]
    rfl

/-- The calls on files refine byte strings and offsets, a write that needs more room being refused only
where `malloc` has no buffer, and come back. -/
theorem files_refined {v₀ v : Vfs} (hb : Booted v₀) {ls : List (Op × Result)}
    (hrun : Run (Guarded (fun v l => Allowed v l.1) Step) v₀ ls v) :
    ∃ a, Run (Beside (Guarded (fun v l => Allowed v l.1) Step) fun v => Files.Step (Memory v 0))
        (v₀, Files.start) ls (v, a) ∧ Refines v 0 a ∧
      ∀ op, Allowed v op → (∀ path, op ≠ .create path) → v.exec op ≠ none := by
  obtain ⟨a, ha, hsim⟩ := hrun.beside (R := fun v a => Simulates v 0 0 a)
    (fun v l w a hR hs => hR.step hs.1 hs.2) hb.simulates
  refine ⟨a, ha, hsim.refines, fun op hop hne => ?_⟩
  cases op with
  | create path => exact absurd rfl (hne path)
  | read fd n =>
    obtain ⟨bs, w, _, hr, _⟩ := hsim.vfsRead fd n
    simp [exec, hr]
  | write fd buf =>
    obtain ⟨n, w, _, hr, _⟩ := hsim.vfsWrite hop
    simp [exec, hr]
  | close fd =>
    obtain ⟨ok, w, _, hr, _⟩ := hsim.vfsClose fd
    simp [exec, hr]
  | «open» path => simp [exec]
  | lseek fd offset => simp [exec]
  | unlink path => cases hop
  | mkdir path => simp [exec]
  | rmdir path => simp [exec]
  | stat path => simp [exec]

def sparse : List (Op × Result) :=
  [(.create (cstring "/a"), .fd (some 0)), (.write 0 [1, 2], .count 2), (.lseek 0 4, .status true),
    (.write 0 [3], .count 1), (.open (cstring "/a"), .fd (some 1)), (.read 1 9, .bytes [1, 2, 0, 0, 3])]

theorem files_refined_sparse :
    ∃ v, Run (Guarded (fun v l => Allowed v l.1) Step) bootedZero sparse v ∧
      ∃ a, Run (Beside (Guarded (fun v l => Allowed v l.1) Step) fun v => Files.Step (Memory v 0))
          (bootedZero, Files.start) sparse (v, a) ∧ Refines v 0 a ∧
        ∀ op, Allowed v op → (∀ path, op ≠ .create path) → v.exec op ≠ none := by
  have hrun : Run (Guarded (fun v l => Allowed v l.1) Step) bootedZero sparse
      ((sparse.map Prod.fst).foldl next bootedZero) :=
    .cons ⟨trivial, step_next rfl⟩ <| .cons ⟨fun _ => by decide, step_next rfl⟩ <|
    .cons ⟨trivial, step_next rfl⟩ <| .cons ⟨fun _ => by decide, step_next rfl⟩ <|
    .cons ⟨fun _ h => by cases h; rfl, step_next rfl⟩ <| .cons ⟨trivial, step_next rfl⟩ (.nil _)
  exact ⟨_, hrun, files_refined bootedZero_booted hrun⟩

end Vfs

end Veni.Filesystem
