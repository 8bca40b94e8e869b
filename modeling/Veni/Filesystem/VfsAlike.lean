import Veni.Filesystem.RamfsAlike
import Veni.Filesystem.VfsMounts

/-! Runs of the VFS that differ only in what `malloc` finds in its buffers. -/

namespace Veni.Filesystem.Vfs

open Veni.Libc Veni.Lib.Transition

structure SameNode (x y : VfsNode) : Prop where
  fields : y = { x with fsFd := y.fsFd }
  fsFd : x.type = .file → y.fsFd = x.fsFd

structure Alike (v w : Vfs) : Prop where
  ramfs : v.ramfs.Alike w.ramfs
  nodes : ∀ i, SameNode (v.nodes i) (w.nodes i)
  files : w.files = v.files
  mounts : w.mounts = v.mounts

def Twin {α : Type*} (a b : α × Vfs) : Prop := b.1 = a.1 ∧ Alike a.2 b.2

lemma Twin.cases {α : Type*} {a b : α × Vfs} (h : Twin a b) :
    ∃ x v w, a = (x, v) ∧ b = (x, w) ∧ Alike v w := by
  obtain ⟨x, v⟩ := a
  obtain ⟨y, w⟩ := b
  obtain ⟨hres, halike⟩ := h
  cases hres
  exact ⟨x, v, w, rfl, rfl, halike⟩

lemma twin_cases {α : Type*} {a b : Option (α × Vfs)} (h : Option.Rel Twin a b) :
    (a = none ∧ b = none) ∨ ∃ x v w, a = some (x, v) ∧ b = some (x, w) ∧ Alike v w := by
  cases h with
  | none => exact .inl ⟨rfl, rfl⟩
  | some htwin =>
    obtain ⟨x, v, w, rfl, rfl, halike⟩ := htwin.cases
    exact .inr ⟨x, v, w, rfl, rfl, halike⟩

section Nodes

variable {x y : VfsNode}

lemma SameNode.refl (x : VfsNode) : SameNode x x := ⟨rfl, fun _ => rfl⟩

lemma SameNode.name (h : SameNode x y) : y.name = x.name := by rw [h.fields]

lemma SameNode.children (h : SameNode x y) : y.children = x.children := by rw [h.fields]

lemma SameNode.addChild (h : SameNode x y) (cs : List ℕ) :
    SameNode { x with children := cs } { y with children := cs } :=
  ⟨by rw [h.fields], h.fsFd⟩

end Nodes

section Walks

variable {v w : Vfs} (h : Alike v w)

include h

lemma Alike.findChild (parent : ℕ) (t : CString) :
    findChild w.nodes parent t = findChild v.nodes parent t := by
  unfold Vfs.findChild
  rw [(h.nodes parent).children]
  simp only [(h.nodes _).name]

lemma Alike.resolveLoop (n node : ℕ) (rest : CString) :
    resolveLoop w.nodes n node rest = resolveLoop v.nodes n node rest := by
  induction n generalizing node rest with
  | zero => rfl
  | succ n ih =>
    unfold Vfs.resolveLoop
    simp only [h.findChild, ih]

lemma Alike.findMount (path : CString) : w.findMount path = v.findMount path := by
  unfold Vfs.findMount Vfs.findMountIdx
  rw [h.mounts]

lemma Alike.withRamfs {r s : Ramfs} (hr : r.Alike s) :
    Alike { v with ramfs := r } { w with ramfs := s } :=
  ⟨hr, h.nodes, h.files, h.mounts⟩

lemma Alike.setCursor (next : Option Cursor) : Alike (v.setCursor next) (w.setCursor next) :=
  h.withRamfs (h.ramfs.setCursor next)

lemma Alike.setFile (fd : ℕ) (f : VfsFile) : Alike (v.setFile fd f) (w.setFile fd f) :=
  ⟨h.ramfs, h.nodes, by rw [Vfs.setFile, Vfs.setFile, h.files], h.mounts⟩

lemma Alike.setFileNode (fd node : ℕ) : Alike (v.setFileNode fd node) (w.setFileNode fd node) := by
  unfold Vfs.setFileNode
  rw [h.files]
  exact h.setFile fd _

lemma Alike.setNode {x y : VfsNode} (hx : SameNode x y) (i : ℕ) :
    Alike (v.setNode i x) (w.setNode i y) := by
  refine ⟨h.ramfs, fun j => ?_, h.files, h.mounts⟩
  by_cases hj : j = i
  · subst hj
    simpa [Vfs.setNode] using hx
  · simpa [Vfs.setNode, hj] using h.nodes j

lemma Alike.addChild (parent child : ℕ) : Alike (v.addChild parent child) (w.addChild parent child) := by
  unfold Vfs.addChild
  rw [(h.nodes parent).children]
  exact h.setNode ((h.nodes parent).addChild _) parent

lemma Alike.vfsResolve (path : CString) : Twin (v.vfsResolve path) (w.vfsResolve path) := by
  unfold Vfs.vfsResolve
  rw [h.mounts, h.findMount]
  split
  · exact ⟨rfl, h⟩
  · split
    · exact ⟨rfl, h⟩
    · simp only [h.resolveLoop]
      split
      · exact ⟨rfl, h⟩
      · exact ⟨rfl, h.setCursor _⟩

lemma Alike.allocFd : Option.Rel Twin v.allocFd w.allocFd := by
  unfold Vfs.allocFd
  rw [h.files]
  cases (List.range vfsMaxOpen).find? fun i => !(v.files i).used with
  | none => exact .none
  | some fd => exact .some ⟨rfl, h.setFile fd _⟩

lemma Alike.openFd (node : ℕ) :
    Twin (match v.allocFd with
      | none => (none, v)
      | some (fd, v) => (some fd, v.setFileNode fd node))
    (match w.allocFd with
      | none => (none, w)
      | some (fd, w) => (some fd, w.setFileNode fd node)) := by
  rcases twin_cases h.allocFd with ⟨hv, hw⟩ | ⟨fd, v₁, w₁, hv, hw, halike⟩
  · rw [hv, hw]
    exact ⟨rfl, h⟩
  · rw [hv, hw]
    exact ⟨rfl, halike.setFileNode fd node⟩

lemma Alike.mallocNode :
    (∃ v₁ w₁, mallocNode v = (none, v₁) ∧ mallocNode w = (none, w₁) ∧ Alike v₁ w₁) ∨
      ∃ p a b v₁ w₁, mallocNode v = (some (p, a), v₁) ∧ mallocNode w = (some (p, b), w₁) ∧
        Alike v₁ w₁ := by
  have hnone := h.ramfs.outcome_none
  simp only [Vfs.mallocNode]
  rcases v.ramfs.heap.malloc_cases vfsNodeSize with ⟨hout, hm⟩ | ⟨bytes, hout, hm⟩
  · rcases w.ramfs.heap.malloc_cases vfsNodeSize with ⟨_, hm'⟩ | ⟨_, hout', _⟩
    · rw [hm, hm']
      exact .inl ⟨_, _, rfl, rfl, h.withRamfs h.ramfs.failed⟩
    · rw [hnone.mpr hout] at hout'
      cases hout'
  · rcases w.ramfs.heap.malloc_cases vfsNodeSize with ⟨hout', _⟩ | ⟨bytes', _, hm'⟩
    · rw [hnone.mp hout'] at hout
      cases hout
    · rw [hm, hm', h.ramfs.calls]
      refine .inr ⟨_, _, _, _, _, rfl, rfl, h.withRamfs ?_⟩
      refine h.ramfs.alloc rfl rfl rfl rfl rfl rfl rfl (by rw [h.ramfs.calls]) (fun p hp => ?_)
        fun p hp => ?_
      · exact Function.update_of_ne hp _ _
      · rw [h.ramfs.calls] at hp
        exact Function.update_of_ne hp _ _

lemma Alike.createDir (mount : VfsMount) (current : ℕ) (path : CBuffer 256) (t : CString) :
    Twin (createDir v mount current path t) (createDir w mount current path t) := by
  simp only [Vfs.createDir]
  rcases (h.withRamfs (h.ramfs.mkdir (appendPath path t).val)).mallocNode with
    ⟨v₁, w₁, hv, hw, halike⟩ | ⟨p, a, b, v₁, w₁, hv, hw, halike⟩
  · rw [hv, hw]
    exact ⟨rfl, halike⟩
  · rw [hv, hw]
    have hnode : SameNode ⟨strncpy 31 t, .dir, mount.fs, a, some current, []⟩
        ⟨strncpy 31 t, .dir, mount.fs, b, some current, []⟩ := ⟨rfl, fun hfile => by cases hfile⟩
    exact ⟨rfl, (halike.setNode hnode p).addChild current p⟩

omit h in
lemma Alike.createLoop {mount : VfsMount} {n : ℕ} (h : Alike v w) (current : ℕ)
    (path : CBuffer 256) (t : CString) :
    Option.Rel Twin (createLoop mount n v current path t) (createLoop mount n w current path t) := by
  induction n generalizing v w current path t with
  | zero => exact .none
  | succ n ih =>
    rw [Vfs.createLoop, Vfs.createLoop, h.ramfs.cursor]
    cases strtokNull .vfsCreate v.ramfs.strtokNext with
    | none => exact .none
    | some found =>
      obtain ⟨next, cursor⟩ := found
      have hcur := h.setCursor cursor
      cases next with
      | none => exact .some ⟨rfl, hcur⟩
      | some u =>
        simp only [h.findChild]
        cases Vfs.findChild v.nodes current t with
        | some child => exact ih hcur child _ u
        | none =>
          obtain ⟨made, v₁, w₁, hv, hw, halike⟩ := (hcur.createDir mount current path t).cases
          simp only
          rw [hv, hw]
          cases made with
          | none => exact .some ⟨rfl, halike⟩
          | some child => exact ih halike child _ u

lemma Alike.createFile (mount : VfsMount) (current : ℕ) (rel : CString) (t : Option CString) :
    Twin (createFile v mount current rel t) (createFile w mount current rel t) := by
  obtain ⟨hres, hramfs⟩ := h.ramfs.create rel
  simp only [Vfs.createFile, h.findChild current]
  split
  · exact ⟨rfl, h⟩
  · cases hv : v.ramfs.ramfsCreate rel with
    | mk made r =>
    cases hw : w.ramfs.ramfsCreate rel with
    | mk made' s =>
    rw [hv, hw] at hres hramfs
    simp only at hres hramfs
    subst hres
    have hdone := h.withRamfs hramfs
    cases made' with
    | none => exact ⟨rfl, hdone⟩
    | some fsFd =>
      simp only
      rcases hdone.mallocNode with ⟨v₁, w₁, hv₁, hw₁, halike⟩ | ⟨p, a, b, v₁, w₁, hv₁, hw₁, halike⟩
      · rw [hv₁, hw₁]
        exact ⟨rfl, halike⟩
      · rw [hv₁, hw₁]
        have hmade := (halike.setNode
          (.refl ⟨strncpy 31 (t.getD nullString), .file, mount.fs, fsFd, some current, []⟩) p).addChild
            current p
        exact hmade.openFd p

lemma Alike.vfsCreate (path : CString) : Option.Rel Twin (v.vfsCreate path) (w.vfsCreate path) := by
  unfold Vfs.vfsCreate
  rw [h.mounts, h.findMount]
  split
  · exact .some ⟨rfl, h⟩
  · split
    · exact .some ⟨rfl, h⟩
    · next mount _ =>
      simp only
      cases strtok .vfsCreate (strncpy 255 (relPath mount path)).val with
      | mk token next =>
      have hcur := h.setCursor next
      cases token with
      | none => exact .some (hcur.createFile mount mount.node _ none)
      | some token =>
        simp only
        rcases twin_cases (hcur.createLoop mount.node ⟨[], by decide⟩ token) with
          ⟨hv, hw⟩ | ⟨stop, v₁, w₁, hv, hw, halike⟩
        · rw [hv, hw]
          exact .none
        · rw [hv, hw]
          cases stop with
          | none => exact .some ⟨rfl, halike⟩
          | some stop => exact .some (halike.createFile mount stop.1 _ (some stop.2))

lemma Alike.vfsOpen (path : CString) : Twin (v.vfsOpen path) (w.vfsOpen path) := by
  obtain ⟨node, v₁, w₁, hv, hw, halike⟩ := (h.vfsResolve path).cases
  unfold Vfs.vfsOpen
  rw [hv, hw]
  cases node with
  | none => exact ⟨rfl, halike⟩
  | some node => exact halike.openFd node

lemma Alike.vfsMount (fs : ℕ) (path : CString) : Twin (v.vfsMount fs path) (w.vfsMount fs path) := by
  unfold Vfs.vfsMount
  rw [h.mounts]
  split
  · exact ⟨rfl, h⟩
  · rcases h.mallocNode with ⟨v₁, w₁, hv, hw, halike⟩ | ⟨p, a, b, v₁, w₁, hv, hw, halike⟩
    · rw [hv, hw]
      exact ⟨rfl, halike⟩
    · rw [hv, hw]
      have hnode : SameNode ⟨strncpy 31 [slash], .dir, fs, a, none, []⟩
          ⟨strncpy 31 [slash], .dir, fs, b, none, []⟩ := ⟨rfl, fun hfile => by cases hfile⟩
      have hroot := halike.setNode hnode p
      refine ⟨rfl, hroot.ramfs, hroot.nodes, hroot.files, ?_⟩
      simp only [hroot.mounts]

end Walks

/-- The descriptor is open and on the node of a directory, whose `fs_fd` nothing assigns. -/
def OnDirectory (v : Vfs) (fd : ℕ) : Prop :=
  v.isOpen fd = true ∧ ∃ x, v.fileNode fd = some x ∧ x.type = .dir

section Descriptors

variable {v w : Vfs} {fd : ℕ}

lemma Alike.isOpen (h : Alike v w) (fd : ℕ) : w.isOpen fd = v.isOpen fd := by
  rw [Vfs.isOpen, Vfs.isOpen, h.files]

lemma Alike.fileNode (h : Alike v w) (hv : FilesForeign v) (hw : FilesForeign w)
    (hopen : v.isOpen fd = true) :
    ∃ x y, v.fileNode fd = some x ∧ w.fileNode fd = some y ∧ SameNode x y := by
  obtain ⟨i, hi, hx⟩ := hv.fileNode hopen
  have hopen' : w.isOpen fd = true := by rw [h.isOpen, hopen]
  obtain ⟨j, hj, hy⟩ := hw.fileNode hopen'
  rw [h.files, hi] at hj
  cases hj
  exact ⟨_, _, hx, hy, h.nodes i⟩

lemma Alike.vfsRead (h : Alike v w) (hv : FilesForeign v) (hw : FilesForeign w) {size : ℕ}
    (hidle : v.OnDirectory fd → v.ramfs.IdleRead size (v.files fd).offset) :
    Option.Rel Twin (v.vfsRead fd size) (w.vfsRead fd size) := by
  unfold Vfs.vfsRead
  rw [h.isOpen, h.files]
  split_ifs with hclosed
  · exact .some ⟨rfl, h⟩
  · have hopen : v.isOpen fd = true := by simpa using hclosed
    obtain ⟨x, y, hx, hy, hnode⟩ := h.fileNode hv hw hopen
    have hread : v.ramfs.ramfsRead y.fsFd size (v.files fd).offset =
        v.ramfs.ramfsRead x.fsFd size (v.files fd).offset := by
      cases htype : x.type with
      | file => rw [hnode.fsFd htype]
      | dir =>
        have hread := hidle ⟨hopen, x, hx, htype⟩
        rw [hread.read h.ramfs.left, hread.read h.ramfs.left]
    rw [hx, hy, Option.bind_some, Option.bind_some, h.ramfs.read, hread]
    cases v.ramfs.ramfsRead x.fsFd size (v.files fd).offset with
    | none => exact .none
    | some res => exact .some ⟨rfl, h.setFile fd _⟩

lemma Alike.vfsWrite (h : Alike v w) (hv : FilesForeign v) (hw : FilesForeign w) {buf : List UInt8}
    (hidle : v.OnDirectory fd → v.ramfs.IdleWrite buf (v.files fd).offset) :
    Option.Rel Twin (v.vfsWrite fd buf) (w.vfsWrite fd buf) := by
  have hfile : w.files fd = v.files fd := by rw [h.files]
  unfold Vfs.vfsWrite
  rw [h.isOpen, hfile]
  split_ifs with hclosed
  · exact .some ⟨rfl, h⟩
  · have hopen : v.isOpen fd = true := by simpa using hclosed
    obtain ⟨x, y, hx, hy, hnode⟩ := h.fileNode hv hw hopen
    have hwrite : Option.Rel Ramfs.SameResult (v.ramfs.ramfsWrite x.fsFd buf (v.files fd).offset)
        (w.ramfs.ramfsWrite y.fsFd buf (v.files fd).offset) := by
      cases htype : x.type with
      | file =>
        rw [hnode.fsFd htype]
        exact h.ramfs.write _ _ _
      | dir =>
        have hwrite := hidle ⟨hopen, x, hx, htype⟩
        rw [hwrite.write h.ramfs.left, (h.ramfs.idleWrite hwrite).write h.ramfs.right]
        exact .some ⟨rfl, rfl, h.ramfs⟩
    rw [hx, hy, Option.bind_some, Option.bind_some]
    generalize v.ramfs.ramfsWrite x.fsFd buf (v.files fd).offset = a at hwrite
    generalize w.ramfs.ramfsWrite y.fsFd buf (v.files fd).offset = b at hwrite
    cases hwrite with
    | none => exact .none
    | @some a b hres =>
      obtain ⟨n, offset, r⟩ := a
      obtain ⟨n', offset', s⟩ := b
      obtain ⟨hn, hoffset, hramfs⟩ := hres
      cases hn
      cases hoffset
      have hstate := (h.withRamfs hramfs).setFile fd { v.files fd with offset := offset }
      exact .some ⟨rfl, hstate⟩

lemma Alike.vfsClose (h : Alike v w) (hv : FilesForeign v) (hw : FilesForeign w)
    (hfile : ¬ v.OnDirectory fd) : Option.Rel Twin (v.vfsClose fd) (w.vfsClose fd) := by
  unfold Vfs.vfsClose
  rw [h.isOpen]
  split_ifs with hclosed
  · exact .some ⟨rfl, h⟩
  · have hopen : v.isOpen fd = true := by simpa using hclosed
    obtain ⟨x, y, hx, hy, hnode⟩ := h.fileNode hv hw hopen
    have htype : x.type = .file := by
      cases htype : x.type with
      | file => rfl
      | dir => exact absurd ⟨hopen, x, hx, htype⟩ hfile
    simp only [hx, hy, Option.map_some, hnode.fsFd htype]
    refine .some ⟨?_, ?_⟩
    · simp only [Ramfs.ramfsClose, h.ramfs.inodes]
    · unfold freeFd
      rw [h.files]
      split
      · exact h.setFile fd _
      · exact h

end Descriptors

inductive FileCall
  | mount (fs : ℕ) (path : CString)
  | create (path : CString)
  | open (path : CString)
  | read (fd size : ℕ)
  | write (fd : ℕ) (buf : List UInt8)
  | close (fd : ℕ)

def execCall (v : Vfs) : FileCall → Option (Result × Vfs)
  | .mount fs path => some (.status (v.vfsMount fs path).1, (v.vfsMount fs path).2)
  | .create path => v.exec (.create path)
  | .open path => v.exec (.open path)
  | .read fd size => v.exec (.read fd size)
  | .write fd buf => v.exec (.write fd buf)
  | .close fd => v.exec (.close fd)

def CallStep (v : Vfs) (l : FileCall × Result) (w : Vfs) : Prop := v.execCall l.1 = some (l.2, w)

/-- On the descriptor of a directory, the call is no `vfs_close`, and a read or a write that finds
nothing to do whatever file `fs_fd` names. -/
def Harmless (v : Vfs) : FileCall → Prop
  | .read fd size => v.OnDirectory fd → v.ramfs.IdleRead size (v.files fd).offset
  | .write fd buf => v.OnDirectory fd → v.ramfs.IdleWrite buf (v.files fd).offset
  | .close fd => ¬ v.OnDirectory fd
  | _ => True

def SameFiles (v w : Vfs) : Prop :=
  w.ramfs.inodes = v.ramfs.inodes ∧
    ∀ i, (v.ramfs.inodes i).used = true → w.ramfs.contents i = v.ramfs.contents i

/-- A read through the descriptor of a directory returns nothing, and a write changes no file. -/
def DirectoryIdle (v : Vfs) (l : FileCall × Result) (w : Vfs) : Prop :=
  ∀ fd, v.OnDirectory fd → (∀ size, l.1 = .read fd size → l.2 = .bytes []) ∧
    ∀ buf, l.1 = .write fd buf → SameFiles v w

section Calls

variable {v w : Vfs}

lemma rel_map {α β : Type*} {a b : Option (α × Vfs)} (h : Option.Rel Twin a b) (f : α → β) :
    Option.Rel Twin (a.map fun x => (f x.1, x.2)) (b.map fun x => (f x.1, x.2)) := by
  rcases twin_cases h with ⟨rfl, rfl⟩ | ⟨x, v, w, rfl, rfl, halike⟩
  · exact .none
  · exact .some ⟨rfl, halike⟩

lemma Alike.execCall (h : Alike v w) (hv : FilesForeign v) (hw : FilesForeign w) {c : FileCall}
    (hc : Harmless v c) : Option.Rel Twin (v.execCall c) (w.execCall c) := by
  cases c with
  | mount fs path =>
    obtain ⟨hres, halike⟩ := h.vfsMount fs path
    exact .some ⟨by rw [hres], halike⟩
  | create path => exact rel_map (h.vfsCreate path) Result.fd
  | «open» path =>
    obtain ⟨hres, halike⟩ := h.vfsOpen path
    exact .some ⟨by rw [hres], halike⟩
  | read fd size => exact rel_map (h.vfsRead hv hw hc) Result.bytes
  | write fd buf => exact rel_map (h.vfsWrite hv hw hc) Result.count
  | close fd => exact rel_map (h.vfsClose hv hw hc) Result.status

lemma Alike.sameFiles (h : Alike v w) : SameFiles v w := ⟨h.ramfs.inodes, h.ramfs.contents⟩

lemma NodesLive.callStep (hv : NodesLive v) (hf : FilesForeign v) {l : FileCall × Result}
    (hs : CallStep v l w) : NodesLive w ∧ FilesForeign w := by
  obtain ⟨c, res⟩ := l
  cases c with
  | mount fs path =>
    cases hs
    exact ⟨(hv.vfsMount fs path).1, (hv.vfsMount fs path).2 hf⟩
  | create path => exact hv.step hf (l := (.create path, res)) hs
  | «open» path => exact hv.step hf (l := (.open path, res)) hs
  | read fd size => exact hv.step hf (l := (.read fd size, res)) hs
  | write fd buf => exact hv.step hf (l := (.write fd buf, res)) hs
  | close fd => exact hv.step hf (l := (.close fd, res)) hs

lemma started_alike {outcome outcome' : ℕ → Option (ℕ → UInt8)}
    (h : ∀ k, (outcome' k).isSome = (outcome k).isSome) :
    Alike (started outcome) (started outcome') := by
  obtain ⟨hlive, _⟩ := started_live outcome
  obtain ⟨hlive', _⟩ := started_live outcome'
  refine ⟨⟨rfl, rfl, rfl, h, fun i hu => ?_, hlive.sound, hlive.storage, hlive'.storage⟩,
    fun i => .refl _, rfl, rfl⟩
  by_cases hi : i = 0
  · subst hi
    rfl
  · simp [started, Ramfs.ramfsInit, hi] at hu

lemma callStep_unique (v : Vfs) (l : FileCall × Result) (w w' : Vfs) (h : CallStep v l w)
    (h' : CallStep v l w') : w = w' := by
  rw [CallStep, h] at h'
  cases h'
  rfl

structure Together (v w : Vfs) : Prop where
  alike : Alike v w
  left : NodesLive v ∧ FilesForeign v
  right : NodesLive w ∧ FilesForeign w

lemma Together.step (h : Together v w) {l : FileCall × Result} {v' : Vfs}
    (hs : Guarded (fun v l => Harmless v l.1) CallStep v l v') :
    ∃ w', CallStep w l w' ∧ Together v' w' := by
  obtain ⟨hc, hs⟩ := hs
  have hleft := h.left.1.callStep h.left.2 hs
  rcases twin_cases (h.alike.execCall h.left.2 h.right.2 hc) with
    ⟨hnone, _⟩ | ⟨res, x, y, hx, hy, halike⟩
  · rw [CallStep, hnone] at hs
    cases hs
  · rw [CallStep, hx] at hs
    cases hs
    exact ⟨y, hy, halike, hleft, h.right.1.callStep h.right.2 hy⟩

lemma Harmless.directoryIdle {l : FileCall × Result} (hv : NodesLive v ∧ FilesForeign v)
    (hc : Harmless v l.1) (hs : CallStep v l w) : DirectoryIdle v l w := by
  obtain ⟨c, res⟩ := l
  intro fd hdir
  have hopen := hdir.1
  obtain ⟨x, hx, _⟩ := hdir.2
  constructor
  · rintro size rfl
    obtain ⟨⟨bs, u⟩, hread, he⟩ := Option.map_eq_some_iff.mp hs
    rw [Vfs.vfsRead, if_neg (by simp [hopen]), hx, Option.bind_some,
      (hc hdir).read hv.1.storage] at hread
    cases hread
    cases he
    rfl
  · rintro buf rfl
    obtain ⟨⟨n, u⟩, hwrite, he⟩ := Option.map_eq_some_iff.mp hs
    rw [Vfs.vfsWrite, if_neg (by simp [hopen]), hx, Option.bind_some,
      (hc hdir).write hv.1.storage] at hwrite
    cases hwrite
    cases he
    exact ⟨rfl, fun _ _ => rfl⟩

lemma directoryIdle_along {ls : List (FileCall × Result)} (hv : NodesLive v ∧ FilesForeign v)
    (h : Run (Guarded (fun v l => Harmless v l.1) CallStep) v ls w) :
    Along CallStep DirectoryIdle v ls := by
  induction h with
  | nil => trivial
  | cons hs _ ih =>
    intro t ht
    have hnext := hv.1.callStep hv.2 hs.2
    rw [← callStep_unique _ _ _ _ hs.2 ht]
    exact ⟨Harmless.directoryIdle hv hs.1 hs.2, ih hnext⟩

end Calls

/-- In a run whose calls through the descriptors of directories all find nothing to do, results and
files do not depend on what `malloc` finds in its buffers, and those calls neither read nor change a
file. -/
theorem contents_irrelevant {outcome outcome' : ℕ → Option (ℕ → UInt8)}
    (hsame : ∀ k, (outcome' k).isSome = (outcome k).isSome) {ls : List (FileCall × Result)} {v : Vfs}
    (h : Run (Guarded (fun v l => Harmless v l.1) CallStep) (started outcome) ls v) :
    (∃ w, Run CallStep (started outcome') ls w ∧ SameFiles v w) ∧
      Along CallStep DirectoryIdle (started outcome) ls := by
  have hstart : Together (started outcome) (started outcome') :=
    ⟨started_alike hsame, started_live outcome, started_live outcome'⟩
  refine ⟨?_, directoryIdle_along hstart.left h⟩
  obtain ⟨w, hrun, hboth⟩ := h.simulation (f := id) (fun _ _ _ _ hR hs => hR.step hs) hstart
  rw [List.map_id] at hrun
  exact ⟨w, hrun, hboth.alike.sameFiles⟩

def holding (n : UInt8) : ℕ → Option (ℕ → UInt8) :=
  fun _ => some fun a => if a = fsFdOffset then n else 0

lemma started_no_file (outcome : ℕ → Option (ℕ → UInt8)) (i : ℕ) :
    (started outcome).ramfs.isOpenFile i = false := by
  by_cases hi : i = 0
  · subst hi
    rfl
  · simp [Ramfs.isOpenFile, started, Ramfs.ramfsInit, hi]

def rootFirst : List (FileCall × Result) :=
  [(.mount 0 (cstring "/"), .status true), (.open (cstring "/"), .fd (some 0)), (.read 0 8, .bytes []),
    (.create (cstring "/f"), .fd (some 1)), (.write 1 [65], .count 1)]

theorem contents_irrelevant_idle :
    ∃ v w, Run (Guarded (fun v l => Harmless v l.1) CallStep) (started (holding 1)) rootFirst v ∧
      Run CallStep (started (holding 0)) rootFirst w ∧ SameFiles v w := by
  have hguarded : ∃ v, Run (Guarded (fun v l => Harmless v l.1) CallStep) (started (holding 1))
      rootFirst v := by
    refine ⟨_, .cons ⟨trivial, rfl⟩ (.cons ⟨trivial, rfl⟩ (.cons ⟨fun _ => .inr fun i hi => ?_, rfl⟩
      (.cons ⟨trivial, rfl⟩ (.single ⟨fun hdir => ?_, rfl⟩))))⟩
    · have hnone := started_no_file (holding 1) i
      exact absurd (hnone.symm.trans hi) (by decide)
    · obtain ⟨_, x, hx, htype⟩ := hdir
      have hfile := congrArg (Option.map VfsNode.type) hx
      rw [Option.map_some, htype] at hfile
      cases hfile
  obtain ⟨v, hrun⟩ := hguarded
  have hfails : ∀ k, (holding 0 k).isSome = (holding 1 k).isSome := fun _ => rfl
  obtain ⟨⟨w, hother, hsame⟩, _⟩ := contents_irrelevant hfails hrun
  exact ⟨v, w, hrun, hother, hsame⟩

def beforeRead : List (FileCall × Result) :=
  [(.mount 0 (cstring "/"), .status true), (.create (cstring "/f"), .fd (some 0)),
    (.write 0 [65], .count 1), (.open (cstring "/"), .fd (some 1))]

/-- The root's `fs_fd` is the number of a file in one run and not in the other: a read through the root
returns that file's data or nothing. -/
theorem contents_read :
    ∃ v, Run CallStep (started (holding 1)) (beforeRead ++ [(.read 1 1, .bytes [65])]) v ∧
      ¬ ∃ w, Run CallStep (started (holding 0)) (beforeRead ++ [(.read 1 1, .bytes [65])]) w := by
  refine ⟨_, .cons rfl (.cons rfl (.cons rfl (.cons rfl (.single rfl)))), ?_⟩
  rintro ⟨w, hrun⟩
  obtain ⟨t, hbefore, hlast⟩ := hrun.split
  have hempty : ∃ u, Run CallStep (started (holding 0)) (beforeRead ++ [(.read 1 1, .bytes [])]) u :=
    ⟨_, .cons rfl (.cons rfl (.cons rfl (.cons rfl (.single rfl))))⟩
  obtain ⟨u, hother⟩ := hempty
  obtain ⟨t', hbefore', hlast'⟩ := hother.split
  cases Run.unique callStep_unique hbefore hbefore'
  cases hlast with
  | cons hread _ =>
    cases hlast' with
    | cons hread' _ =>
      rw [CallStep, hread] at hread'
      simp at hread'

end Veni.Filesystem.Vfs
