import Veni.Filesystem.VfsOperations

/-! Mounts that come and go, and the nodes that descriptors are on. -/

namespace Veni.Filesystem

open Veni.Libc Veni.Lib.Tokens Veni.Lib.NameGraph Veni.Lib.Transition

namespace Ramfs

def Foreign (r : Ramfs) (p : ℕ) : Prop :=
  r.heap.buffers p ≠ none ∧ ∀ i, (r.inodes i).used = true → (r.inodes i).data ≠ some p

section Foreign

variable {r s : Ramfs} {p q : ℕ}

lemma Foreign.lt_calls (h : Foreign r p) (hs : Storage r) : p < r.heap.calls := by
  by_contra hle
  exact h.1 (hs.fresh p (not_lt.mp hle))

lemma Keeps.isForeign (hk : Keeps r s) (hs : Storage r) (h : Foreign r p) : Foreign s p := by
  have hlt := h.lt_calls hs
  refine ⟨?_, fun i hu hd => ?_⟩
  · rw [hk.foreign p hlt h.2]
    exact h.1
  · rcases hk.data i p hu hd with ⟨hu', hd'⟩ | hle
    · exact h.2 i hu' hd'
    · omega

lemma Storage.foreign_new (hs : Storage r) (hi : s.inodes = r.inodes)
    (hb : s.heap.buffers r.heap.calls ≠ none) : Foreign s r.heap.calls := by
  refine ⟨hb, fun i hu hd => ?_⟩
  rw [hi] at hu hd
  exact absurd (hs.lt_calls hu hd) (lt_irrefl _)

def freed (r : Ramfs) (p : ℕ) : Ramfs := { r with heap := r.heap.free p }

lemma Foreign.freed (h : Foreign r q) (hne : q ≠ p) : Foreign (r.freed p) q :=
  ⟨by simpa [Ramfs.freed, Malloc.free, hne] using h.1, h.2⟩

lemma Storage.freed (hs : Storage r) (h : Foreign r p) : Storage (r.freed p) where
  empty := hs.empty
  buffer i q hu hd := by
    have hne : q ≠ p := by
      rintro rfl
      exact h.2 i hu hd
    obtain ⟨b, hb, hsize⟩ := hs.buffer i q hu hd
    exact ⟨b, by simpa [Ramfs.freed, Malloc.free, hne] using hb, hsize⟩
  size_le := hs.size_le
  capacity_lt := hs.capacity_lt
  apart := hs.apart
  fresh q hq := by
    by_cases hqp : q = p
    · simp [Ramfs.freed, Malloc.free, hqp]
    · simpa [Ramfs.freed, Malloc.free, hqp] using hs.fresh q hq

end Foreign

end Ramfs

namespace Vfs

structure NodesLive (v : Vfs) : Prop where
  sound : Ramfs.Sound v.ramfs.inodes
  storage : Ramfs.Storage v.ramfs
  mount : ∀ m ∈ v.mounts, v.ramfs.Foreign m.node
  child : ∀ i, ∀ c ∈ (v.nodes i).children, v.ramfs.Foreign c
  apart : ∀ m ∈ v.mounts, ∀ i, m.node ∉ (v.nodes i).children
  distinct : (v.mounts.map VfsMount.node).Nodup

def FilesForeign (v : Vfs) : Prop :=
  ∀ fd, v.isOpen fd = true → ∃ i, (v.files fd).node = some i ∧ v.ramfs.Foreign i

section Nodes

variable {v w : Vfs}

lemma NodesLive.keeps (h : NodesLive v) (hn : w.nodes = v.nodes) (hm : w.mounts = v.mounts)
    (hs : Ramfs.Sound w.ramfs.inodes) (hst : Ramfs.Storage w.ramfs)
    (hk : Ramfs.Keeps v.ramfs w.ramfs) : NodesLive w where
  sound := hs
  storage := hst
  mount m hmem := by
    rw [hm] at hmem
    exact hk.isForeign h.storage (h.mount m hmem)
  child i c hc := by
    rw [hn] at hc
    exact hk.isForeign h.storage (h.child i c hc)
  apart := by
    rw [hn, hm]
    exact h.apart
  distinct := by
    rw [hm]
    exact h.distinct

lemma FilesForeign.keeps (hf : FilesForeign v) (hst : Ramfs.Storage v.ramfs) (he : w.files = v.files)
    (hk : Ramfs.Keeps v.ramfs w.ramfs) : FilesForeign w := by
  intro fd hfd
  rw [isOpen, he] at hfd
  obtain ⟨i, hi, hlive⟩ := hf fd hfd
  exact ⟨i, by rw [he, hi], hk.isForeign hst hlive⟩

lemma NodesLive.walk (h : NodesLive v) {ns : List CString} {i j : ℕ} (hi : v.ramfs.Foreign i)
    (hw : walk (links v) i ns = some j) : v.ramfs.Foreign j :=
  walk_invariant (I := v.ramfs.Foreign) (fun k _ c _ hc => h.child k c (mem_links.mp hc).1) hi hw

lemma NodesLive.resolve (h : NodesLive v) {path : CString} {i : ℕ}
    (hi : (v.vfsResolve path).1 = some i) : v.ramfs.Foreign i := by
  unfold vfsResolve at hi
  split at hi
  · cases hi
  · split at hi
    · cases hi
    · next mount hmount =>
      have hlive := h.mount mount (findMount_mem hmount)
      simp only at hi
      split at hi
      · cases hi
        exact hlive
      · rw [resolveLoop_eq (Nat.lt_succ_of_le (length_tokens_le isSlash _))] at hi
        exact h.walk hlive hi

lemma NewNode.nodesLive {current : ℕ} {x : VfsNode} (h : NewNode v w current x) (hv : NodesLive v)
    (hx : x.children = []) : NodesLive w ∧ w.ramfs.Foreign v.ramfs.heap.calls := by
  have hstays := h.stays hv.storage
  have hnew : w.ramfs.Foreign v.ramfs.heap.calls := by
    obtain ⟨b, hb⟩ := h.buffers
    exact hv.storage.foreign_new h.inodes (by rw [hb, Function.update_self]; simp)
  have hchild : ∀ i, ∀ c ∈ (w.nodes i).children,
      (∃ j, c ∈ (v.nodes j).children) ∨ c = v.ramfs.heap.calls := by
    intro i c hc
    by_cases hi : i = v.ramfs.heap.calls
    · rw [hi, h.self, hx] at hc
      cases hc
    · by_cases hic : i = current
      · rw [hic, h.parent, List.mem_append, List.mem_singleton] at hc
        exact hc.imp (fun hold => ⟨current, hold⟩) id
      · rw [h.other i hi hic] at hc
        exact .inl ⟨i, hc⟩
  refine ⟨⟨h.inodes ▸ hv.sound, hstays.storage, fun m hm => ?_, fun i c hc => ?_, fun m hm i hc => ?_,
    ?_⟩, hnew⟩
  · rw [h.mounts] at hm
    exact hstays.keeps.isForeign hv.storage (hv.mount m hm)
  · rcases hchild i c hc with ⟨j, hj⟩ | rfl
    · exact hstays.keeps.isForeign hv.storage (hv.child j c hj)
    · exact hnew
  · rw [h.mounts] at hm
    rcases hchild i m.node hc with ⟨j, hj⟩ | he
    · exact hv.apart m hm j hj
    · exact absurd ((hv.mount m hm).lt_calls hv.storage) (by omega)
  · rw [h.mounts]
    exact hv.distinct

end Nodes

section Create

variable {v w : Vfs} {mount : VfsMount} {current : ℕ}

lemma NodesLive.stays (h : NodesLive v) {r : Ramfs} (hs : Ramfs.Sound r.inodes)
    (hst : Ramfs.Stays v.ramfs r) : NodesLive { v with ramfs := r } :=
  h.keeps rfl rfl hs hst.storage hst.keeps

lemma NodesLive.cursor (h : NodesLive v) (next : Option Cursor) : NodesLive (v.setCursor next) :=
  h.stays (r := (v.setCursor next).ramfs) h.sound (h.storage.same rfl rfl)

lemma NodesLive.mkdir (h : NodesLive v) (path : CString) :
    NodesLive { v with ramfs := (v.ramfs.ramfsMkdir path).2 } :=
  h.stays (h.sound.step (o := .mkdir path) rfl) (h.storage.mkdir h.sound path)

lemma NodesLive.create (h : NodesLive v) (path : CString) :
    NodesLive { v with ramfs := (v.ramfs.ramfsCreate path).2 } :=
  h.stays (h.sound.step (o := .create path) rfl) (h.storage.create h.sound path)

lemma NodesLive.failedMalloc (h : NodesLive v) : NodesLive v.failedMalloc :=
  h.stays h.sound (stays_failedMalloc h.storage)

variable (mount) in
lemma createDir_nodesLive (h : NodesLive v) (hc : v.ramfs.Foreign current) (path : CBuffer 256) (t : CString) :
    NodesLive (createDir v mount current path t).2 ∧
      ∀ child, (createDir v mount current path t).1 = some child →
        (createDir v mount current path t).2.ramfs.Foreign child := by
  have hmkdir := h.mkdir (appendPath path t).val
  rcases createDir_cases h.sound mount (hc.lt_calls h.storage) path t with ⟨_, he⟩ | ⟨_, fsFd, w, he, hnew⟩
  · rw [he]
    exact ⟨hmkdir.failedMalloc, fun _ hnone => by cases hnone⟩
  · rw [he]
    obtain ⟨hlive, hchild⟩ := hnew.nodesLive hmkdir rfl
    refine ⟨hlive, fun child hsome => ?_⟩
    rw [(Ramfs.mkdir_cases h.sound (appendPath path t).val).1] at hchild
    cases hsome
    exact hchild

variable (mount) in
lemma createDir_live (h : NodesLive v) (hf : FilesForeign v) (hc : v.ramfs.Foreign current)
    (path : CBuffer 256) (t : CString) :
    NodesLive (createDir v mount current path t).2 ∧ FilesForeign (createDir v mount current path t).2 ∧
      ∀ child, (createDir v mount current path t).1 = some child →
        (createDir v mount current path t).2.ramfs.Foreign child := by
  obtain ⟨hlive, hchild⟩ := createDir_nodesLive mount h hc path t
  refine ⟨hlive, ?_, hchild⟩
  have hmkdir := h.mkdir (appendPath path t).val
  have hfiles : FilesForeign { v with ramfs := (v.ramfs.ramfsMkdir (appendPath path t).val).2 } :=
    hf.keeps h.storage rfl (h.storage.mkdir h.sound (appendPath path t).val).keeps
  rcases createDir_cases h.sound mount (hc.lt_calls h.storage) path t with ⟨_, he⟩ | ⟨_, fsFd, w, he, hnew⟩
  · rw [he]
    exact hfiles.keeps hmkdir.storage rfl (stays_failedMalloc hmkdir.storage).keeps
  · rw [he]
    exact hfiles.keeps hmkdir.storage hnew.files (hnew.stays hmkdir.storage).keeps

lemma createFile_nodesLive (h : NodesLive v) (hc : v.ramfs.Foreign current) {rel t : CString}
    {fd : Option ℕ} (he : createFile v mount current rel (some t) = (fd, w)) : NodesLive w := by
  have hcreate := h.create rel
  have hends := createFile_ends h.sound mount (hc.lt_calls h.storage) rel t
  rw [he] at hends
  cases hends with
  | taken => exact h
  | refused => exact hcreate
  | noMemory => exact hcreate.failedMalloc
  | noDescriptor _ _ _ hnew => exact (hnew.nodesLive hcreate rfl).1
  | opened _ _ _ hnew _ =>
    have hlive := (hnew.nodesLive hcreate rfl).1
    exact hlive.keeps rfl rfl hlive.sound hlive.storage (Ramfs.Keeps.refl _)

lemma createFile_live (h : NodesLive v) (hf : FilesForeign v) (hc : v.ramfs.Foreign current)
    {rel t : CString} {fd : Option ℕ} (he : createFile v mount current rel (some t) = (fd, w)) :
    NodesLive w ∧ FilesForeign w := by
  refine ⟨createFile_nodesLive h hc he, ?_⟩
  have hcreate := h.create rel
  have hkeeps := (h.storage.create h.sound rel).keeps
  have hfiles : FilesForeign { v with ramfs := (v.ramfs.ramfsCreate rel).2 } :=
    hf.keeps h.storage rfl hkeeps
  have hfail : FilesForeign { v with ramfs := (v.ramfs.ramfsCreate rel).2 }.failedMalloc :=
    hfiles.keeps hcreate.storage rfl (stays_failedMalloc hcreate.storage).keeps
  have hends := createFile_ends h.sound mount (hc.lt_calls h.storage) rel t
  rw [he] at hends
  cases hends with
  | taken => exact hf
  | refused => exact hfiles
  | noMemory => exact hfail
  | noDescriptor _ _ _ hnew =>
    exact hfiles.keeps hcreate.storage hnew.files (hnew.stays hcreate.storage).keeps
  | @opened _ k x _ _ _ hnew _ =>
    obtain ⟨_, hnode⟩ := hnew.nodesLive hcreate rfl
    have hx := hfiles.keeps hcreate.storage hnew.files (hnew.stays hcreate.storage).keeps
    rw [(Ramfs.create_cases h.sound rel).1] at hnode
    intro i hi
    by_cases hik : i = k
    · subst hik
      exact ⟨v.ramfs.heap.calls, by simp [setFile], hnode⟩
    · have hopen : x.isOpen i = true := by simpa [isOpen, setFile, hik] using hi
      obtain ⟨j, hj, hlivej⟩ := hx i hopen
      exact ⟨j, by simpa [setFile, hik] using hj, hlivej⟩

lemma vfsCreate_nodesLive (h : NodesLive v) {path : CString} {fd : Option ℕ}
    (he : v.vfsCreate path = some (fd, w)) : NodesLive w := by
  refine vfsCreate_invariant (I := fun x c => NodesLive x ∧ x.ramfs.Foreign c) (J := NodesLive)
    (K := fun _ x => NodesLive x) (fun x c hx => hx.1) (fun x c next hx => ⟨hx.1.cursor next, hx.2⟩)
    (fun x c t child hx hfound => ⟨hx.1, ?_⟩) (fun mount _ x c q t hx => ?_)
    (fun mount _ x c rel t fd y hx hc => createFile_nodesLive hx.1 hx.2 hc) (fun x hx => hx)
    h (fun mount hmount => ⟨h, h.mount mount (findMount_mem hmount)⟩) he
  · rw [findChild_eq] at hfound
    exact hx.1.child c child (mem_links.mp (mem_of_target hfound)).1
  · obtain ⟨hlive, hmade⟩ := createDir_nodesLive mount hx.1 hx.2 q t
    exact ⟨hlive, fun child hc => ⟨hlive, hmade child hc⟩⟩

lemma vfsCreate_live (h : NodesLive v) (hf : FilesForeign v) {path : CString} {fd : Option ℕ}
    (he : v.vfsCreate path = some (fd, w)) : NodesLive w ∧ FilesForeign w := by
  refine vfsCreate_invariant (I := fun x c => (NodesLive x ∧ FilesForeign x) ∧ x.ramfs.Foreign c)
    (J := fun x => NodesLive x ∧ FilesForeign x) (K := fun _ x => NodesLive x ∧ FilesForeign x)
    (fun x c hx => hx.1) (fun x c next hx => ⟨⟨hx.1.1.cursor next, hx.1.2⟩, hx.2⟩)
    (fun x c t child hx hfound => ⟨hx.1, ?_⟩) (fun mount _ x c q t hx => ?_)
    (fun mount _ x c rel t fd y hx hc => createFile_live hx.1.1 hx.1.2 hx.2 hc) (fun x hx => hx)
    ⟨h, hf⟩ (fun mount hmount => ⟨⟨h, hf⟩, h.mount mount (findMount_mem hmount)⟩) he
  · rw [findChild_eq] at hfound
    exact hx.1.1.child c child (mem_links.mp (mem_of_target hfound)).1
  · obtain ⟨hlive, hfiles, hmade⟩ := createDir_live mount hx.1.1 hx.1.2 hx.2 q t
    exact ⟨⟨hlive, hfiles⟩, fun child hc => ⟨⟨hlive, hfiles⟩, hmade child hc⟩⟩

end Create

structure Below (r s : Ramfs) : Prop where
  sound : Ramfs.Sound s.inodes
  storage : Ramfs.Storage s
  keeps : Ramfs.Keeps r s

section Step

variable {v w : Vfs}

lemma NodesLive.below_stays (h : NodesLive v) {o : Ramfs.Op} {s : Ramfs} (hs : Ramfs.Step v.ramfs o s)
    (hst : Ramfs.Stays v.ramfs s) : Below v.ramfs s :=
  ⟨h.sound.step hs, hst.storage, hst.keeps⟩

lemma NodesLive.below_same (h : NodesLive v) {r : Ramfs} (hi : r.inodes = v.ramfs.inodes)
    (hheap : r.heap = v.ramfs.heap) : Below v.ramfs r :=
  ⟨hi ▸ h.sound, (h.storage.same hi hheap).storage, (h.storage.same hi hheap).keeps⟩

lemma NodesLive.below (h : NodesLive v) {l : Op × Result} (hs : Step v l w)
    (hl : ∀ path, l.1 ≠ .create path) : Below v.ramfs w.ramfs := by
  cases call_ends hs hl with
  | unchanged hi hheap hw _ =>
    rw [hw]
    exact h.below_same hi hheap
  | opened _ _ hw =>
    rw [hw]
    exact h.below_same rfl rfl
  | moved hw _ =>
    rw [hw]
    exact h.below_same rfl rfl
  | written ha hw =>
    rw [hw]
    cases h.storage.write_ends ha with
    | closed => exact h.below_same rfl rfl
    | failed =>
      have hst := stays_failedMalloc h.storage
      exact ⟨h.sound, hst.storage, hst.keeps⟩
    | written _ _ hc => exact ⟨hc.sameTree.sound h.sound, hc.storage, hc.keeps⟩
  | closed hw =>
    rw [hw]
    exact h.below_same rfl rfl
  | @unlinked path next mount _ hw =>
    have hcur := h.cursor next
    have hsame := h.below_same (r := (v.setCursor next).ramfs) rfl rfl
    have hbelow := hcur.below_stays (o := .unlink (relPath mount path)) rfl
      (hcur.storage.unlink hcur.sound _)
    rw [hw]
    exact ⟨hbelow.sound, hbelow.storage, hsame.keeps.trans hbelow.keeps⟩
  | @made path mount _ hw =>
    rw [hw]
    exact h.below_stays (o := .mkdir (relPath mount path)) rfl (h.storage.mkdir h.sound _)
  | @removed path mount _ hw =>
    rw [hw]
    exact h.below_stays (o := .rmdir (relPath mount path)) rfl (h.storage.rmdir h.sound _)

lemma NodesLive.step_nodes (h : NodesLive v) {l : Op × Result} (hs : Step v l w) : NodesLive w := by
  rcases step_cases hs with ⟨path, fd, rfl, hc⟩ | hl
  · exact vfsCreate_nodesLive h hc
  · have hquiet := quiet_step hs hl
    have hbelow := h.below hs hl
    exact h.keeps hquiet.nodes hquiet.mounts hbelow.sound hbelow.storage hbelow.keeps

lemma NodesLive.step (h : NodesLive v) (hf : FilesForeign v) {l : Op × Result} (hs : Step v l w) :
    NodesLive w ∧ FilesForeign w := by
  refine ⟨h.step_nodes hs, ?_⟩
  rcases step_cases hs with ⟨path, fd, rfl, hc⟩ | hl
  · exact (vfsCreate_live h hf hc).2
  · have hquiet := quiet_step hs hl
    have hbelow := h.below hs hl
    intro fd hfd
    rcases hquiet.descriptor fd with ⟨hopen, hnode⟩ | ⟨_, hclosed⟩ | ⟨path, hopened⟩
    · rw [hopen] at hfd
      obtain ⟨i, hi, hlive⟩ := hf fd hfd
      exact ⟨i, hnode.trans hi, hbelow.keeps.isForeign h.storage hlive⟩
    · rw [hclosed] at hfd
      cases hfd
    · obtain ⟨_, _, i, hi, hnode⟩ := hquiet.opened path fd hopened
      exact ⟨i, hnode, hbelow.keeps.isForeign h.storage (h.resolve hi)⟩

end Step

inductive MountOp
  | call (op : Op)
  | mount (fs : ℕ) (path : CString)
  | unmount (path : CString)

def execMount (v : Vfs) : MountOp → Option Vfs
  | .call op => (v.exec op).map Prod.snd
  | .mount fs path => some (v.vfsMount fs path).2
  | .unmount path => some (v.vfsUnmount path).2

def MountStep (v : Vfs) (o : MountOp) (w : Vfs) : Prop := v.execMount o = some w

section Mounts

variable {v w : Vfs}

lemma NodesLive.mounted (h : NodesLive v) {x : VfsNode} {m : VfsMount} (hx : x.children = [])
    (hm : m.node = v.ramfs.heap.calls) (hn : w.nodes = Function.update v.nodes v.ramfs.heap.calls x)
    (hmounts : w.mounts = v.mounts ++ [m]) (hi : w.ramfs.inodes = v.ramfs.inodes)
    (hst : Ramfs.Stays v.ramfs w.ramfs) (hb : w.ramfs.heap.buffers v.ramfs.heap.calls ≠ none) :
    NodesLive w := by
  have hnew : w.ramfs.Foreign m.node := by
    rw [hm]
    exact h.storage.foreign_new hi hb
  have hold : ∀ {p}, v.ramfs.Foreign p → w.ramfs.Foreign p ∧ p ≠ m.node := fun hp =>
    ⟨hst.keeps.isForeign h.storage hp, by rw [hm]; exact (hp.lt_calls h.storage).ne⟩
  have hchild : ∀ i, ∀ c ∈ (w.nodes i).children, c ∈ (v.nodes i).children := by
    intro i c hc
    rw [hn] at hc
    by_cases hic : i = v.ramfs.heap.calls
    · rw [hic, Function.update_self, hx] at hc
      cases hc
    · rwa [Function.update_of_ne hic] at hc
  have hmem : ∀ k ∈ w.mounts, k ∈ v.mounts ∨ k = m := by
    intro k hk
    rw [hmounts, List.mem_append, List.mem_singleton] at hk
    exact hk
  refine ⟨hi ▸ h.sound, hst.storage, fun k hk => ?_, fun i c hc => ?_, fun k hk i hc => ?_, ?_⟩
  · rcases hmem k hk with hk | rfl
    · exact (hold (h.mount k hk)).1
    · exact hnew
  · exact (hold (h.child i c (hchild i c hc))).1
  · rcases hmem k hk with hk | rfl
    · exact h.apart k hk i (hchild i _ hc)
    · exact (hold (h.child i _ (hchild i _ hc))).2 rfl
  · rw [hmounts, List.map_append]
    refine h.distinct.append (List.nodup_singleton _) fun n hn hn' => ?_
    obtain ⟨k, hk, rfl⟩ := List.mem_map.mp hn
    exact (hold (h.mount k hk)).2 (List.mem_singleton.mp hn')

lemma NodesLive.vfsMount (h : NodesLive v) (fs : ℕ) (path : CString) :
    NodesLive (v.vfsMount fs path).2 ∧ (FilesForeign v → FilesForeign (v.vfsMount fs path).2) := by
  unfold Vfs.vfsMount
  split
  · exact ⟨h, id⟩
  · simp only [mallocNode]
    rcases v.ramfs.heap.malloc_cases vfsNodeSize with ⟨_, hm⟩ | ⟨bytes, _, hm⟩
    · rw [hm]
      exact ⟨h.failedMalloc, fun hf =>
        hf.keeps (w := v.failedMalloc) h.storage rfl (stays_failedMalloc h.storage).keeps⟩
    · rw [hm]
      have hst : Ramfs.Stays v.ramfs { v.ramfs with heap := { v.ramfs.heap with
          calls := v.ramfs.heap.calls + 1
          buffers := Function.update v.ramfs.heap.buffers v.ramfs.heap.calls
            (some ⟨vfsNodeSize, bytes⟩) } } :=
        h.storage.alloc rfl rfl rfl fun p hp => Function.update_of_ne hp _ _
      exact ⟨h.mounted rfl rfl rfl rfl rfl hst (by simp [setNode]), fun hf =>
        hf.keeps h.storage rfl hst.keeps⟩

def unmounted (v : Vfs) (path : CString) : Option ℕ :=
  ((v.findMountIdx path).bind fun i => v.mounts[i]?).bind fun m =>
    if m.mountPath.val = path then some m.node else none

lemma unmount_cases (v : Vfs) (path : CString) :
    (v.unmounted path = none ∧ (v.vfsUnmount path).2 = v) ∨
      ∃ i m, v.mounts[i]? = some m ∧ v.unmounted path = some m.node ∧ (v.vfsUnmount path).2 =
        { v with ramfs := v.ramfs.freed m.node, mounts := v.mounts.eraseIdx i } := by
  unfold unmounted vfsUnmount
  cases v.findMountIdx path with
  | none => exact .inl ⟨rfl, rfl⟩
  | some i =>
    simp only [Option.bind_some]
    cases hm : v.mounts[i]? with
    | none => exact .inl ⟨rfl, rfl⟩
    | some m =>
      by_cases hpath : m.mountPath.val = path
      · refine .inr ⟨i, m, hm, ?_, ?_⟩
        · simp [hpath]
        · simp only [hpath, ne_eq, not_true_eq_false, if_false]
          rfl
      · left
        simp [hpath]

lemma NodesLive.vfsUnmount (h : NodesLive v) (path : CString) : NodesLive (v.vfsUnmount path).2 := by
  rcases unmount_cases v path with ⟨_, he⟩ | ⟨i, m, hm, _, he⟩
  · rw [he]
    exact h
  · rw [he]
    have hmem := List.mem_of_getElem? hm
    have hother : ∀ k ∈ v.mounts.eraseIdx i, k ∈ v.mounts ∧ k.node ≠ m.node := by
      intro k hk
      obtain ⟨j, hji, hj⟩ := List.mem_eraseIdx_iff_getElem?.mp hk
      refine ⟨List.mem_of_getElem? hj, fun hnode => hji ?_⟩
      have hlt : j < (v.mounts.map VfsMount.node).length := by
        rw [List.length_map]
        exact (List.getElem?_eq_some_iff.mp hj).1
      refine (List.getElem?_inj hlt h.distinct).mp ?_
      rw [List.getElem?_map, List.getElem?_map, hj, hm, Option.map_some, Option.map_some, hnode]
    refine ⟨h.sound, h.storage.freed (h.mount m hmem), fun k hk => ?_, fun j c hc => ?_, fun k hk => ?_, ?_⟩
    · exact (h.mount k (hother k hk).1).freed (hother k hk).2
    · apply (h.child j c hc).freed
      rintro rfl
      exact h.apart m hmem j hc
    · exact h.apart k (hother k hk).1
    · exact ((List.eraseIdx_sublist v.mounts i).map _).nodup h.distinct

def KeepsRoots (v : Vfs) : MountOp → Prop
  | .unmount path => ∀ root, v.unmounted path = some root →
      ∀ fd, v.isOpen fd = true → (v.files fd).node ≠ some root
  | _ => True

/-- Every used descriptor is on a node that was allocated and has not been freed, so that the calls on
it find the fields of the node. -/
structure FilesLive (v : Vfs) : Prop where
  live : ∀ fd < vfsMaxOpen, (v.files fd).used = true →
    ∃ i, (v.files fd).node = some i ∧ v.isLive i = true
  consulted : ∀ fd, v.isOpen fd = true → v.fileNode fd ≠ none

lemma isOpen_iff {fd : ℕ} : v.isOpen fd = true ↔ fd < vfsMaxOpen ∧ (v.files fd).used = true := by
  rw [isOpen, Bool.and_eq_true, decide_eq_true_eq]

lemma FilesForeign.fileNode (hv : FilesForeign v) {fd : ℕ} (hopen : v.isOpen fd = true) :
    ∃ i, (v.files fd).node = some i ∧ v.fileNode fd = some (v.nodes i) := by
  obtain ⟨i, hi, hlive⟩ := hv fd hopen
  have hl : v.isLive i = true := Option.isSome_iff_ne_none.mpr hlive.1
  exact ⟨i, hi, by rw [Vfs.fileNode, hi, Option.bind_some, if_pos hl]⟩

lemma FilesForeign.filesLive (hf : FilesForeign v) : FilesLive v := by
  refine ⟨fun fd hlt hu => ?_, fun fd hopen => ?_⟩
  · obtain ⟨i, hi, hlive⟩ := hf fd (isOpen_iff.mpr ⟨hlt, hu⟩)
    exact ⟨i, hi, Option.isSome_iff_ne_none.mpr hlive.1⟩
  · obtain ⟨i, _, hnode⟩ := hf.fileNode hopen
    rw [hnode]
    exact Option.some_ne_none _

lemma FilesForeign.unmount (hf : FilesForeign v) (path : CString) :
    (FilesLive (v.vfsUnmount path).2 ↔ KeepsRoots v (.unmount path)) ∧
      (KeepsRoots v (.unmount path) → FilesForeign (v.vfsUnmount path).2) := by
  have hafter : KeepsRoots v (.unmount path) → FilesForeign (v.vfsUnmount path).2 := by
    intro hkeep
    rcases unmount_cases v path with ⟨_, he⟩ | ⟨_, m, _, hroot, he⟩
    · rw [he]
      exact hf
    · rw [he]
      intro fd hfd
      obtain ⟨i, hi, hlive⟩ := hf fd hfd
      refine ⟨i, hi, hlive.freed ?_⟩
      rintro rfl
      exact hkeep m.node hroot fd hfd hi
  refine ⟨⟨fun hl root hroot fd hfd hnode => ?_, fun hkeep => (hafter hkeep).filesLive⟩, hafter⟩
  rcases unmount_cases v path with ⟨hnone, _⟩ | ⟨_, m, _, hsome, he⟩
  · rw [hroot] at hnone
    cases hnone
  · rw [hroot, Option.some.injEq] at hsome
    subst hsome
    rw [he] at hl
    obtain ⟨hlt, hu⟩ := isOpen_iff.mp hfd
    obtain ⟨i, hi, hlive⟩ := hl.live fd hlt hu
    cases hnode.symm.trans hi
    simp [isLive, Ramfs.freed, Malloc.free] at hlive

lemma NodesLive.mountStep (h : NodesLive v) (hf : FilesForeign v) {o : MountOp}
    (hs : MountStep v o w) :
    NodesLive w ∧ (FilesLive w ↔ KeepsRoots v o) ∧ (KeepsRoots v o → FilesForeign w) := by
  cases o with
  | call op =>
    obtain ⟨⟨res, u⟩, he, rfl⟩ := Option.map_eq_some_iff.mp hs
    obtain ⟨hw, hfw⟩ := h.step hf (l := (op, res)) he
    exact ⟨hw, iff_of_true hfw.filesLive trivial, fun _ => hfw⟩
  | mount fs path =>
    cases hs
    obtain ⟨hw, hfw⟩ := h.vfsMount fs path
    exact ⟨hw, iff_of_true (hfw hf).filesLive trivial, fun _ => hfw hf⟩
  | unmount path =>
    cases hs
    exact ⟨h.vfsUnmount path, hf.unmount path⟩

lemma NodesLive.mountStep_nodes (h : NodesLive v) {o : MountOp} (hs : MountStep v o w) : NodesLive w := by
  cases o with
  | call op =>
    obtain ⟨⟨res, u⟩, he, rfl⟩ := Option.map_eq_some_iff.mp hs
    exact h.step_nodes (l := (op, res)) he
  | mount fs path =>
    cases hs
    exact (h.vfsMount fs path).1
  | unmount path =>
    cases hs
    exact h.vfsUnmount path

end Mounts

def started (outcome : ℕ → Option (ℕ → UInt8)) : Vfs :=
  let v := (powerOn outcome).vfsInit
  { v with ramfs := v.ramfs.ramfsInit }

lemma started_live (outcome : ℕ → Option (ℕ → UInt8)) :
    NodesLive (started outcome) ∧ FilesForeign (started outcome) := by
  have hdata : ∀ i, ((started outcome).ramfs.inodes i).data = none ∧
      ((started outcome).ramfs.inodes i).size = 0 ∧ ((started outcome).ramfs.inodes i).capacity = 0 := by
    intro i
    by_cases hi : i = 0
    · subst hi
      exact ⟨rfl, rfl, rfl⟩
    · simp [started, vfsInit, Ramfs.ramfsInit, hi, powerOn, Ramfs.emptyInode]
  refine ⟨⟨Ramfs.init_sound _, ⟨fun i _ _ => (hdata i).2.2, fun i p _ hp => ?_, fun i _ => ?_,
    fun i _ => ?_, fun i j p _ _ hp => ?_, fun _ _ => rfl⟩, fun m hm => ?_, fun i c hc => ?_,
    fun m hm => ?_, List.nodup_nil⟩, fun fd hfd => ?_⟩
  · rw [(hdata i).1] at hp
    cases hp
  · rw [(hdata i).2.1]
    exact Nat.zero_le _
  · rw [(hdata i).2.2]
    omega
  · rw [(hdata i).1] at hp
    cases hp
  · cases hm
  · cases hc
  · cases hm
  · obtain ⟨_, hu⟩ := isOpen_iff.mp hfd
    simp [started, vfsInit, powerOn] at hu

/-- Used descriptors are on live nodes after every call of a run if and only if no `vfs_unmount` frees
the root that a used descriptor is on. -/
theorem files_live_iff (outcome : ℕ → Option (ℕ → UInt8)) (ops : List MountOp) :
    FilesLive (started outcome) ∧
      (Along MountStep (fun _ _ v => FilesLive v) (started outcome) ops ↔
        Along MountStep (fun v o _ => KeepsRoots v o) (started outcome) ops) := by
  obtain ⟨hlive, hfiles⟩ := started_live outcome
  refine ⟨hfiles.filesLive, along_iff (I := fun v => NodesLive v ∧ FilesForeign v)
    (H := fun _ _ _ => True) (fun v o w hv hs _ => ?_) (fun v o w hv hs _ hk => ?_) ⟨hlive, hfiles⟩
    (along_true _ _)⟩
  · exact (hv.1.mountStep hv.2 hs).2.1
  · obtain ⟨hw, _, hfw⟩ := hv.1.mountStep hv.2 hs
    exact ⟨hw, hfw hk⟩

theorem unmounted_root_open :
    ∃ v, Run MountStep (started fun _ => some fun _ => 0)
        [.mount 0 (cstring "/"), .call (.open (cstring "/")), .unmount (cstring "/")] v ∧
      (v.files 0).used = true ∧ (v.files 0).node = some 0 ∧ v.isLive 0 = false ∧ ¬ FilesLive v := by
  refine ⟨_, .cons rfl (.cons rfl (.single rfl)), rfl, rfl, rfl, fun hl => ?_⟩
  exact hl.consulted 0 rfl rfl

end Vfs

end Veni.Filesystem
