import Veni.Filesystem.RamfsStorage
import Veni.Filesystem.VfsLoop

/-! The calls of the VFS on one mounted file system: what each can do, and what all preserve. -/

namespace Veni.Filesystem.Vfs

open Veni.Lib Veni.Libc Veni.Lib.Tokens Veni.Lib.NameGraph

def FreeFd (v : Vfs) (fd : ℕ) : Prop :=
  fd < vfsMaxOpen ∧ (v.files fd).used = false ∧ ∀ j < fd, (v.files j).used = true

lemma allocFd_cases (v : Vfs) :
    ((∀ fd < vfsMaxOpen, (v.files fd).used = true) ∧ v.allocFd = none) ∨
      ∃ fd w, FreeFd v fd ∧ v.allocFd = some (fd, w) ∧
        ∀ node, w.setFileNode fd node = v.setFile fd ⟨some node, 0, true⟩ := by
  unfold allocFd
  cases hf : (List.range vfsMaxOpen).find? fun i => !(v.files i).used with
  | none =>
    refine .inl ⟨fun i hi => ?_, rfl⟩
    simpa using List.find?_eq_none.mp hf i (List.mem_range.mpr hi)
  | some fd =>
    obtain ⟨hi, hmem, hlow⟩ := List.find?_range_eq_some.mp hf
    refine .inr ⟨fd, _, ⟨List.mem_range.mp hmem, by simpa using hi, fun j hj => by simpa using hlow j hj⟩,
      rfl, fun node => ?_⟩
    simp [setFileNode, setFile]

inductive FileEnds (mount : VfsMount) (v : Vfs) (current : ℕ) (rel t : CString) :
    Option ℕ × Vfs → Prop
  | taken (h : target (links v current) t ≠ none) : FileEnds mount v current rel t (none, v)
  | refused (habsent : target (links v current) t = none) (hres : (v.ramfs.ramfsCreate rel).1 = none) :
      FileEnds mount v current rel t (none, { v with ramfs := (v.ramfs.ramfsCreate rel).2 })
  | noMemory {idx : ℕ} (habsent : target (links v current) t = none)
      (hres : (v.ramfs.ramfsCreate rel).1 = some idx)
      (hout : v.ramfs.heap.outcome v.ramfs.heap.calls = none) :
      FileEnds mount v current rel t
        (none, { v with ramfs := (v.ramfs.ramfsCreate rel).2 }.failedMalloc)
  | noDescriptor {idx : ℕ} {w : Vfs} (habsent : target (links v current) t = none)
      (hres : (v.ramfs.ramfsCreate rel).1 = some idx)
      (hout : v.ramfs.heap.outcome v.ramfs.heap.calls ≠ none)
      (hnew : NewNode { v with ramfs := (v.ramfs.ramfsCreate rel).2 } w current
        ⟨strncpy 31 t, .file, mount.fs, idx, some current, []⟩)
      (hfull : ∀ fd < vfsMaxOpen, (v.files fd).used = true) :
      FileEnds mount v current rel t (none, w)
  | opened {idx fd : ℕ} {w : Vfs} (habsent : target (links v current) t = none)
      (hres : (v.ramfs.ramfsCreate rel).1 = some idx)
      (hout : v.ramfs.heap.outcome v.ramfs.heap.calls ≠ none)
      (hnew : NewNode { v with ramfs := (v.ramfs.ramfsCreate rel).2 } w current
        ⟨strncpy 31 t, .file, mount.fs, idx, some current, []⟩)
      (hfd : FreeFd v fd) :
      FileEnds mount v current rel t
        (some fd, w.setFile fd ⟨some v.ramfs.heap.calls, 0, true⟩)

lemma createFile_ends {v : Vfs} (hs : Ramfs.Sound v.ramfs.inodes) (mount : VfsMount) {current : ℕ}
    (hc : current < v.ramfs.heap.calls) (rel t : CString) :
    FileEnds mount v current rel t (createFile v mount current rel (some t)) := by
  have hheap := (Ramfs.create_cases hs rel).1
  have hcases := mallocNode_cases { v with ramfs := (v.ramfs.ramfsCreate rel).2 }
  simp only [hheap] at hcases
  simp only [createFile, Option.getD_some, findChild_eq]
  cases ht : target (links v current) t with
  | some c => exact .taken (by rw [ht]; simp)
  | none =>
    simp only [Option.isSome_none, Bool.false_eq_true, if_false]
    cases hres : v.ramfs.ramfsCreate rel with
    | mk made r =>
    have hr : r = (v.ramfs.ramfsCreate rel).2 := by rw [hres]
    cases made with
    | none =>
      rw [hr]
      exact .refused ht (by rw [hres])
    | some idx =>
      have hidx : (v.ramfs.ramfsCreate rel).1 = some idx := by rw [hres]
      simp only [hr]
      rcases hcases with ⟨hout, hm⟩ | ⟨fsFd, w, hout, hm, hnew⟩
      · rw [hm]
        exact .noMemory ht hidx hout
      · rw [hm]
        simp only
        have hnode := hnew ⟨strncpy 31 t, .file, mount.fs, idx, some current, []⟩ current hc
        generalize (w.setNode v.ramfs.heap.calls
          ⟨strncpy 31 t, .file, mount.fs, idx, some current, []⟩).addChild current
            v.ramfs.heap.calls = u at hnode ⊢
        have hfiles : u.files = v.files := hnode.files
        rcases allocFd_cases u with ⟨hfull, ha⟩ | ⟨fd, u', hfree, ha, hset⟩
        · rw [ha]
          exact .noDescriptor ht hidx hout hnode (by rw [← hfiles]; exact hfull)
        · rw [ha]
          simp only [hset]
          refine .opened ht hidx hout hnode ?_
          rw [FreeFd, ← hfiles]
          exact hfree

section Invariant

variable {I : Vfs → ℕ → Prop} {J : Vfs → Prop} {v w : Vfs}
  (hleave : ∀ v current, I v current → J v)
  (hcursor : ∀ v current next, I v current → I (v.setCursor next) current)
  (hchild : ∀ v current t child, I v current → findChild v.nodes current t = some child → I v child)

include hleave hcursor hchild

lemma createLoop_invariant {mount : VfsMount}
    (hdir : ∀ v current path t, I v current → J (createDir v mount current path t).2 ∧
      ∀ child, (createDir v mount current path t).1 = some child →
        I (createDir v mount current path t).2 child)
    {n current : ℕ} {path : CBuffer 256} {t : CString} {res : Option (ℕ × CString)}
    (h : I v current) (he : createLoop mount n v current path t = some (res, w)) :
    J w ∧ ∀ node u, res = some (node, u) → I w node := by
  induction n generalizing v current path t with
  | zero => cases he
  | succ n ih =>
    rw [createLoop] at he
    cases hnext : strtokNull .vfsCreate v.ramfs.strtokNext with
    | none =>
      rw [hnext] at he
      cases he
    | some found =>
      obtain ⟨next, cursor⟩ := found
      rw [hnext] at he
      have hcur := hcursor v current cursor h
      cases next with
      | none =>
        cases he
        refine ⟨hleave _ _ hcur, fun node u hres => ?_⟩
        cases hres
        exact hcur
      | some u =>
        simp only at he
        cases hfound : findChild v.nodes current t with
        | some child =>
          rw [hfound] at he
          exact ih (hchild _ _ t child hcur hfound) he
        | none =>
          rw [hfound] at he
          obtain ⟨hleft, hmade⟩ := hdir (v.setCursor cursor) current path t hcur
          cases hres : createDir (v.setCursor cursor) mount current path t with
          | mk made x =>
          rw [hres] at he hleft hmade
          cases made with
          | none =>
            cases he
            exact ⟨hleft, fun node u hnone => by cases hnone⟩
          | some child => exact ih (hmade child rfl) he

lemma vfsCreate_invariant {K : Option ℕ → Vfs → Prop} {path : CString} {fd : Option ℕ}
    (hdir : ∀ mount, v.findMount path = some mount → ∀ x current q t, I x current →
      J (createDir x mount current q t).2 ∧ ∀ child, (createDir x mount current q t).1 = some child →
        I (createDir x mount current q t).2 child)
    (hfile : ∀ mount, v.findMount path = some mount → ∀ x current rel t fd y, I x current →
      createFile x mount current rel (some t) = (fd, y) → K fd y)
    (hnone : ∀ x, J x → K none x) (hv : J v)
    (hstart : ∀ mount, v.findMount path = some mount → I v mount.node)
    (he : v.vfsCreate path = some (fd, w)) : K fd w := by
  unfold vfsCreate at he
  split at he
  · cases he
    exact hnone v hv
  · split at he
    · cases he
      exact hnone v hv
    · next mount hmount =>
      simp only at he
      cases htok : strtok .vfsCreate (strncpy 255 (relPath mount path)).val with
      | mk token next =>
      rw [htok] at he
      have hcur := hcursor v _ next (hstart mount hmount)
      cases token with
      | none => exact hfile mount hmount _ _ _ nullString _ _ hcur (Option.some.inj he)
      | some token =>
        simp only at he
        cases hloop : createLoop mount 256 (v.setCursor next) mount.node ⟨[], by decide⟩ token with
        | none =>
          rw [hloop] at he
          cases he
        | some found =>
          obtain ⟨stop, x⟩ := found
          rw [hloop] at he
          obtain ⟨hx, hnode⟩ :=
            createLoop_invariant hleave hcursor hchild (hdir mount hmount) hcur hloop
          cases stop with
          | none =>
            cases he
            exact hnone _ hx
          | some stop =>
            obtain ⟨node, u⟩ := stop
            exact hfile mount hmount _ _ _ _ _ _ (hnode node u rfl) (Option.some.inj he)

end Invariant

lemma findMount_mem {v : Vfs} {path : CString} {m : VfsMount} (h : v.findMount path = some m) :
    m ∈ v.mounts := by
  obtain ⟨i, _, hi⟩ := Option.bind_eq_some_iff.mp h
  exact List.mem_of_getElem? hi

structure Ready (v : Vfs) (root fs : ℕ) : Prop where
  mounted : Mounted v root fs
  rooted : Rooted v root
  sound : Ramfs.Sound v.ramfs.inodes
  storage : Ramfs.Storage v.ramfs

section Ready

variable {v w : Vfs} {root fs : ℕ}

lemma Ready.cursor (h : Ready v root fs) (next : Option Cursor) : Ready (v.setCursor next) root fs where
  mounted := h.mounted
  rooted := h.rooted.congr rfl le_rfl
  sound := h.sound
  storage := ⟨h.storage.empty, h.storage.buffer, h.storage.size_le, h.storage.capacity_lt,
    h.storage.apart, h.storage.fresh⟩

lemma Ready.files (h : Ready v root fs) (hm : w.mounts = v.mounts) (hn : w.nodes = v.nodes)
    (hr : w.ramfs = v.ramfs) : Ready w root fs where
  mounted := hm.trans h.mounted
  rooted := h.rooted.congr hn (by rw [hr])
  sound := hr ▸ h.sound
  storage := hr ▸ h.storage

lemma Ready.written (h : Ready v root fs) {r : Ramfs} {i : ℕ} {c : List UInt8}
    (hw : Ramfs.Written v.ramfs r i c) : Ready { v with ramfs := r } root fs where
  mounted := h.mounted
  rooted := h.rooted.congr rfl hw.keeps.calls
  sound := hw.sameTree.sound h.sound
  storage := hw.storage

lemma Ready.ramfs (h : Ready v root fs) {r : Ramfs} (hs : Ramfs.Sound r.inodes)
    (hst : Ramfs.Stays v.ramfs r) : Ready { v with ramfs := r } root fs where
  mounted := h.mounted
  rooted := h.rooted.congr rfl hst.keeps.calls
  sound := hs
  storage := hst.storage

lemma Ready.mkdir (h : Ready v root fs) (path : CString) :
    Ready { v with ramfs := (v.ramfs.ramfsMkdir path).2 } root fs :=
  h.ramfs (h.sound.step (o := .mkdir path) rfl) (h.storage.mkdir h.sound path)

lemma Ready.create (h : Ready v root fs) (path : CString) :
    Ready { v with ramfs := (v.ramfs.ramfsCreate path).2 } root fs :=
  h.ramfs (h.sound.step (o := .create path) rfl) (h.storage.create h.sound path)

lemma stays_failedMalloc (h : Ramfs.Storage v.ramfs) : Ramfs.Stays v.ramfs v.failedMalloc.ramfs :=
  h.alloc rfl rfl rfl fun _ _ => rfl

lemma Ready.failedMalloc (h : Ready v root fs) : Ready v.failedMalloc root fs :=
  h.ramfs h.sound (stays_failedMalloc h.storage)

lemma NewNode.stays {current : ℕ} {x : VfsNode} (h : NewNode v w current x)
    (hs : Ramfs.Storage v.ramfs) : Ramfs.Stays v.ramfs w.ramfs := by
  obtain ⟨b, hb⟩ := h.buffers
  refine hs.alloc h.inodes h.outcome h.calls fun p hp => ?_
  rw [hb, Function.update_of_ne hp]

lemma NewNode.ready {current : ℕ} {x : VfsNode} (h : NewNode v w current x) (hr : Ready v root fs)
    (hc : current < v.ramfs.heap.calls) (hx : x.children = []) : Ready w root fs where
  mounted := h.mounts.trans hr.mounted
  rooted := h.rooted hr.rooted hc hx
  sound := h.inodes ▸ hr.sound
  storage := (h.stays hr.storage).storage

lemma createDir_ready (h : Ready v root fs) (mount : VfsMount) {current : ℕ}
    (hc : current < v.ramfs.heap.calls) (path : CBuffer 256) (t : CString) :
    Ready (createDir v mount current path t).2 root fs := by
  have hready := h.mkdir (appendPath path t).val
  rcases createDir_cases h.sound mount hc path t with ⟨_, he⟩ | ⟨_, fsFd, w, he, hnew⟩
  · rw [he]
    exact hready.failedMalloc
  · rw [he]
    exact hnew.ready hready
      (by rw [(Ramfs.mkdir_cases h.sound (appendPath path t).val).1]; exact hc) rfl

lemma createFile_ready (h : Ready v root fs) {mount : VfsMount} {current : ℕ}
    (hc : current < v.ramfs.heap.calls) {rel t : CString} {res : Option ℕ × Vfs}
    (he : createFile v mount current rel (some t) = res) : Ready res.2 root fs := by
  have hready := h.create rel
  have hcalls : current < (v.ramfs.ramfsCreate rel).2.heap.calls := by
    rw [(Ramfs.create_cases h.sound rel).1]
    exact hc
  have hends := createFile_ends h.sound mount hc rel t
  rw [he] at hends
  cases hends with
  | taken => exact h
  | refused => exact hready
  | noMemory => exact hready.failedMalloc
  | noDescriptor _ _ _ hnew => exact hnew.ready hready hcalls rfl
  | opened _ _ _ hnew => exact (hnew.ready hready hcalls rfl).files rfl rfl rfl

end Ready

lemma Mounted.create_null {v : Vfs} {root fs : ℕ} (h : Mounted v root fs) {path : CString}
    (hp : path.head? = some slash) (hts : Ramfs.components (relOf path) = []) :
    v.vfsCreate path = some (createFile (v.setCursor (some ⟨.vfsCreate, []⟩)) (rootMount root fs) root
      (relOf path) (some nullString)) := by
  unfold vfsCreate
  rw [if_neg (not_or.mpr ⟨not_not.mpr hp, h.ne_nil⟩), h.findMount hp]
  have htok : strtok .vfsCreate (strncpy 255 (relOf path)).val = (none, some ⟨.vfsCreate, []⟩) := by
    rw [strtok, show tokenStep (strncpy 255 (relOf path)).val = _ from tokenStep_of_nil hts]
  simp only [relPath_eq, htok]
  rfl

lemma Mounted.create_cons {v : Vfs} {root fs : ℕ} (h : Mounted v root fs) {path : CString}
    (hp : path.head? = some slash) {t : CString} {us : List CString}
    (hts : Ramfs.components (relOf path) = t :: us) :
    ∃ rest, tokens isSlash rest = us ∧ v.vfsCreate path =
      match createLoop (rootMount root fs) 256 (v.setCursor (some ⟨.vfsCreate, rest⟩)) root
          ⟨[], by decide⟩ t with
      | none => none
      | some (none, v) => some (none, v)
      | some (some (current, token), v) =>
        some (createFile v (rootMount root fs) current (relOf path) (some token)) := by
  unfold vfsCreate
  rw [if_neg (not_or.mpr ⟨not_not.mpr hp, h.ne_nil⟩), h.findMount hp]
  obtain ⟨rest, hstep, hrest⟩ := tokenStep_of_cons hts
  have htok : strtok .vfsCreate (strncpy 255 (relOf path)).val =
      (some t, some ⟨.vfsCreate, rest⟩) := by
    rw [strtok, show tokenStep (strncpy 255 (relOf path)).val = _ from hstep]
  refine ⟨rest, hrest, ?_⟩
  simp only [relPath_eq, htok]
  rfl

lemma Ready.create_ends {v : Vfs} {root fs : ℕ} (h : Ready v root fs) {path : CString}
    (hp : path.head? = some slash) (hne : Ramfs.components (relOf path) ≠ []) :
    ∃ out, LoopEnds (rootMount root fs) v (Ramfs.components (relOf path)) out ∧ v.vfsCreate path =
      match out with
      | none => none
      | some (none, v) => some (none, v)
      | some (some (current, token), v) =>
        some (createFile v (rootMount root fs) current (relOf path) (some token)) := by
  obtain ⟨t, us, hts⟩ := List.exists_cons_of_ne_nil hne
  obtain ⟨rest, hrest, hcreate⟩ := h.mounted.create_cons hp hts
  have hends := createLoop_ends h.sound (show Rooted v (rootMount root fs).node from h.rooted) hts hrest
  rw [← hts] at hends
  exact ⟨_, hends, hcreate⟩

lemma create_of_not_absolute {v : Vfs} {path : CString} (hp : path.head? ≠ some slash) :
    v.vfsCreate path = some (none, v) := by
  rw [vfsCreate, if_pos (.inl hp)]

lemma create_preserves {root fs : ℕ} {I : Vfs → Prop} {J : Option ℕ → Vfs → Prop}
    (hcursor : ∀ v next, I v → I (v.setCursor next))
    (hdir : ∀ v current path t, Ready v root fs → I v → current < v.ramfs.heap.calls →
      I (createDir v (rootMount root fs) current path t).2)
    (hfile : ∀ v current rel t fd w, Ready v root fs → I v → current < v.ramfs.heap.calls →
      createFile v (rootMount root fs) current rel (some t) = (fd, w) → J fd w)
    (hnone : ∀ v, I v → J none v) {v w : Vfs} {path : CString} {fd : Option ℕ} (h : Ready v root fs)
    (hi : I v) (he : v.vfsCreate path = some (fd, w)) : Ready w root fs ∧ J fd w := by
  have hroot : ∀ mount, v.findMount path = some mount → mount = rootMount root fs := by
    intro mount hmount
    have hmem := findMount_mem hmount
    rwa [h.mounted, List.mem_singleton] at hmem
  refine vfsCreate_invariant (I := fun x c => (Ready x root fs ∧ I x) ∧ c < x.ramfs.heap.calls)
    (J := fun x => Ready x root fs ∧ I x) (K := fun fd x => Ready x root fs ∧ J fd x)
    (fun x c hx => hx.1) (fun x c next hx => ⟨⟨hx.1.1.cursor next, hcursor x next hx.1.2⟩, hx.2⟩)
    (fun x c t child hx hfound => ⟨hx.1, ?_⟩) (fun mount hmount x c q t hx => ?_)
    (fun mount hmount x c rel t fd y hx hc => ?_) (fun x hx => ⟨hx.1, hnone x hx.2⟩) ⟨h, hi⟩
    (fun mount hmount => ⟨⟨h, hi⟩, ?_⟩) he
  · rw [findChild_eq] at hfound
    exact hx.1.1.rooted.child_lt c child (mem_links.mp (mem_of_target hfound)).1
  · rw [hroot mount hmount]
    have hleft : Ready (createDir x (rootMount root fs) c q t).2 root fs ∧
        I (createDir x (rootMount root fs) c q t).2 :=
      ⟨createDir_ready hx.1.1 _ hx.2 q t, hdir x c q t hx.1.1 hx.1.2 hx.2⟩
    refine ⟨hleft, fun child hmade => ⟨hleft, ?_⟩⟩
    exact (createDir_child hx.1.1.sound hx.2 (Prod.ext hmade rfl)).2.2.2
  · rw [hroot mount hmount] at hc
    exact ⟨createFile_ready hx.1.1 hx.2 hc, hfile x c rel t fd y hx.1.1 hx.1.2 hx.2 hc⟩
  · rw [hroot mount hmount]
    exact h.rooted.root_lt

lemma Ready.vfsCreate {v w : Vfs} {root fs : ℕ} {path : CString} {fd : Option ℕ} (h : Ready v root fs)
    (he : v.vfsCreate path = some (fd, w)) : Ready w root fs :=
  (create_preserves (I := fun _ => True) (J := fun _ _ => True) (fun _ _ _ => trivial)
    (fun _ _ _ _ _ _ _ => trivial) (fun _ _ _ _ _ _ _ _ _ _ => trivial) (fun _ _ => trivial) h
    trivial he).1

lemma open_cases (v : Vfs) (path : CString) :
    ∃ next, ((v.vfsResolve path).1 = none ∧ v.vfsOpen path = (none, v.setCursor next)) ∨
      ∃ node, (v.vfsResolve path).1 = some node ∧
        (((∀ fd < vfsMaxOpen, (v.files fd).used = true) ∧ v.vfsOpen path = (none, v.setCursor next)) ∨
          ∃ fd, FreeFd v fd ∧
            v.vfsOpen path = (some fd, (v.setCursor next).setFile fd ⟨some node, 0, true⟩)) := by
  obtain ⟨next, hstate⟩ := resolve_state v path
  refine ⟨next, ?_⟩
  unfold vfsOpen
  generalize v.vfsResolve path = found at hstate ⊢
  obtain ⟨node, w⟩ := found
  simp only at hstate
  subst hstate
  cases node with
  | none => exact .inl ⟨rfl, rfl⟩
  | some node =>
    right
    refine ⟨node, rfl, ?_⟩
    rcases allocFd_cases (v.setCursor next) with ⟨hfull, ha⟩ | ⟨fd, w, hfree, ha, hset⟩
    · refine .inl ⟨hfull, ?_⟩
      simp only [ha]
    · refine .inr ⟨fd, hfree, ?_⟩
      simp only [ha, hset]

lemma Mounted.unlink_cases {v : Vfs} {root fs : ℕ} (h : Mounted v root fs) (path : CString) :
    ∃ next, ((v.vfsResolve path).1 = none ∧ v.vfsUnlink path = (false, v.setCursor next)) ∨
      path.head? = some slash ∧ (v.vfsResolve path).1 ≠ none ∧ v.vfsUnlink path =
        (((v.setCursor next).ramfs.ramfsUnlink (relOf path)).1,
          { v with ramfs := ((v.setCursor next).ramfs.ramfsUnlink (relOf path)).2 }) := by
  obtain ⟨next, hstate⟩ := resolve_state v path
  refine ⟨next, ?_⟩
  by_cases hp : path.head? = some slash
  · have hm : (v.setCursor next).findMount path = some (rootMount root fs) :=
      Mounted.findMount (v := v.setCursor next) h hp
    unfold vfsUnlink
    generalize v.vfsResolve path = found at hstate ⊢
    obtain ⟨node, w⟩ := found
    simp only at hstate
    subst hstate
    cases node with
    | none => exact .inl ⟨rfl, rfl⟩
    | some node =>
      simp only [hm, relPath_eq]
      exact .inr ⟨hp, by simp, rfl⟩
  · left
    have hnone := resolve_of_not_absolute (v := v) hp
    rw [hnone] at hstate
    rw [hnone]
    refine ⟨rfl, ?_⟩
    simp only [vfsUnlink, hnone]
    rw [← hstate]

lemma Mounted.mkdir_eq {v : Vfs} {root fs : ℕ} (h : Mounted v root fs) (path : CString) :
    v.vfsMkdir path = if path.head? = some slash then
      ((v.ramfs.ramfsMkdir (relOf path)).1, { v with ramfs := (v.ramfs.ramfsMkdir (relOf path)).2 })
      else (false, v) := by
  have hm := h.pathMount path
  unfold vfsMkdir
  by_cases hp : path.head? = some slash
  · rw [if_pos hp] at hm ⊢
    simp only [hm, relPath_eq]
  · rw [if_neg hp] at hm ⊢
    simp only [hm]

lemma Mounted.rmdir_eq {v : Vfs} {root fs : ℕ} (h : Mounted v root fs) (path : CString) :
    v.vfsRmdir path = if path.head? = some slash then
      ((v.ramfs.ramfsRmdir (relOf path)).1, { v with ramfs := (v.ramfs.ramfsRmdir (relOf path)).2 })
      else (false, v) := by
  have hm := h.pathMount path
  unfold vfsRmdir
  by_cases hp : path.head? = some slash
  · rw [if_pos hp] at hm ⊢
    simp only [hm, relPath_eq]
  · rw [if_neg hp] at hm ⊢
    simp only [hm]

lemma Mounted.stat_eq {v : Vfs} {root fs : ℕ} (h : Mounted v root fs) (path : CString) :
    v.vfsStat path = if path.head? = some slash then
      ((v.ramfs.ramfsStat (relOf path)).1, { v with ramfs := (v.ramfs.ramfsStat (relOf path)).2 })
      else (none, v) := by
  have hm := h.pathMount path
  unfold vfsStat
  by_cases hp : path.head? = some slash
  · rw [if_pos hp] at hm ⊢
    simp only [hm, relPath_eq]
  · rw [if_neg hp] at hm ⊢
    simp only [hm]

lemma stat_state (r : Ramfs) (path : CString) :
    (r.ramfsStat path).1 =
        (r.ramfsFindInode path).1.map (fun i => ((r.inodes i).type, (r.inodes i).size)) ∧
      (r.ramfsStat path).2 = (r.ramfsFindInode path).2 := by
  have hi := (Ramfs.findInode_inodes r path).1
  unfold Ramfs.ramfsStat
  generalize r.ramfsFindInode path = found at hi ⊢
  obtain ⟨i, s⟩ := found
  simp only at hi
  cases i with
  | none => exact ⟨rfl, rfl⟩
  | some i => exact ⟨by simp only [hi, Option.map_some], rfl⟩

inductive CallEnds (v w : Vfs) : Op × Result → Prop
  | unchanged {l : Op × Result} {r : Ramfs} (hi : r.inodes = v.ramfs.inodes)
      (hheap : r.heap = v.ramfs.heap) (hw : w = { v with ramfs := r })
      (hl : ∀ path fd, l ≠ (.open path, .fd (some fd))) : CallEnds v w l
  | opened {path : CString} {node fd : ℕ} {next : Option Cursor}
      (hnode : (v.vfsResolve path).1 = some node) (hfd : FreeFd v fd)
      (hw : w = (v.setCursor next).setFile fd ⟨some node, 0, true⟩) :
      CallEnds v w (.open path, .fd (some fd))
  | moved {l : Op × Result} {fd offset : ℕ}
      (hw : w = v.setFile fd { v.files fd with offset := offset })
      (hl : ∀ path fd, l ≠ (.open path, .fd (some fd))) : CallEnds v w l
  | written {fd n i offset : ℕ} {buf : List UInt8} {r : Ramfs}
      (ha : v.ramfs.ramfsWrite i buf (v.files fd).offset = some (n, offset, r))
      (hw : w = { v with ramfs := r }.setFile fd { v.files fd with offset := offset }) :
      CallEnds v w (.write fd buf, .count n)
  | closed {fd : ℕ} {ok : Bool} (hw : w = v.setFile fd { v.files fd with used := false }) :
      CallEnds v w (.close fd, .status ok)
  | unlinked {path : CString} {next : Option Cursor} {mount : VfsMount} {ok : Bool}
      (hw : w = { v with ramfs := ((v.setCursor next).ramfs.ramfsUnlink (relPath mount path)).2 }) :
      CallEnds v w (.unlink path, .status ok)
  | made {path : CString} {mount : VfsMount} {ok : Bool}
      (hw : w = { v with ramfs := (v.ramfs.ramfsMkdir (relPath mount path)).2 }) :
      CallEnds v w (.mkdir path, .status ok)
  | removed {path : CString} {mount : VfsMount} {ok : Bool}
      (hw : w = { v with ramfs := (v.ramfs.ramfsRmdir (relPath mount path)).2 }) :
      CallEnds v w (.rmdir path, .status ok)

section CallEnds

variable {v w : Vfs}

lemma CallEnds.same {l : Op × Result} (hl : ∀ path fd, l ≠ (.open path, .fd (some fd))) :
    CallEnds v v l :=
  .unchanged rfl rfl rfl hl

lemma CallEnds.cursor {l : Op × Result} (next : Option Cursor)
    (hl : ∀ path fd, l ≠ (.open path, .fd (some fd))) : CallEnds v (v.setCursor next) l :=
  .unchanged (r := (v.setCursor next).ramfs) rfl rfl rfl hl

lemma open_ends (v : Vfs) (path : CString) :
    CallEnds v (v.vfsOpen path).2 (.open path, .fd (v.vfsOpen path).1) := by
  obtain ⟨next, ⟨_, he⟩ | ⟨node, hnode, ⟨_, he⟩ | ⟨fd, hfd, he⟩⟩⟩ := open_cases v path
  · rw [he]
    exact .cursor next (by simp)
  · rw [he]
    exact .cursor next (by simp)
  · rw [he]
    exact .opened hnode hfd rfl

lemma read_ends {fd size : ℕ} {bs : List UInt8} (h : v.vfsRead fd size = some (bs, w)) :
    CallEnds v w (.read fd size, .bytes bs) := by
  simp only [vfsRead] at h
  split at h
  · cases h
    exact .same (by simp)
  · obtain ⟨node, _, h⟩ := Option.bind_eq_some_iff.mp h
    obtain ⟨a, _, he⟩ := Option.map_eq_some_iff.mp h
    cases he
    exact .moved rfl (by simp)

lemma write_ends {fd n : ℕ} {buf : List UInt8} (h : v.vfsWrite fd buf = some (n, w)) :
    CallEnds v w (.write fd buf, .count n) := by
  simp only [vfsWrite] at h
  split at h
  · cases h
    exact .same (by simp)
  · obtain ⟨node, _, h⟩ := Option.bind_eq_some_iff.mp h
    obtain ⟨⟨k, offset, r⟩, ha, he⟩ := Option.map_eq_some_iff.mp h
    cases he
    exact .written ha rfl

lemma lseek_ends (v : Vfs) (fd offset : ℕ) :
    CallEnds v (v.vfsLseek fd offset).2 (.lseek fd offset, .status (v.vfsLseek fd offset).1) := by
  unfold vfsLseek
  split
  · exact .same (by simp)
  · exact .moved rfl (by simp)

lemma close_ends {fd : ℕ} {ok : Bool} (h : v.vfsClose fd = some (ok, w)) :
    CallEnds v w (.close fd, .status ok) := by
  simp only [vfsClose] at h
  split at h
  · cases h
    exact .same (by simp)
  · obtain ⟨node, _, he⟩ := Option.map_eq_some_iff.mp h
    cases he
    unfold freeFd
    split
    · exact .closed rfl
    · exact .same (by simp)

lemma unlink_ends (v : Vfs) (path : CString) :
    CallEnds v (v.vfsUnlink path).2 (.unlink path, .status (v.vfsUnlink path).1) := by
  obtain ⟨next, hstate⟩ := resolve_state v path
  unfold vfsUnlink
  generalize v.vfsResolve path = found at hstate ⊢
  obtain ⟨node, x⟩ := found
  simp only at hstate
  subst hstate
  cases node with
  | none => exact .cursor next (by simp)
  | some node =>
    simp only
    split
    · exact .cursor next (by simp)
    · exact .unlinked rfl

lemma mkdir_ends (v : Vfs) (path : CString) :
    CallEnds v (v.vfsMkdir path).2 (.mkdir path, .status (v.vfsMkdir path).1) := by
  unfold vfsMkdir
  split
  · exact .same (by simp)
  · exact .made rfl

lemma rmdir_ends (v : Vfs) (path : CString) :
    CallEnds v (v.vfsRmdir path).2 (.rmdir path, .status (v.vfsRmdir path).1) := by
  unfold vfsRmdir
  split
  · exact .same (by simp)
  · exact .removed rfl

lemma stat_ends (v : Vfs) (path : CString) :
    CallEnds v (v.vfsStat path).2 (.stat path, .stat (v.vfsStat path).1) := by
  unfold vfsStat
  split
  · exact .same (by simp)
  · next mount _ =>
    obtain ⟨hi, hheap⟩ := Ramfs.findInode_inodes v.ramfs (relPath mount path)
    rw [← (stat_state v.ramfs (relPath mount path)).2] at hi hheap
    exact .unchanged hi hheap rfl (by simp)

lemma call_ends {l : Op × Result} (hs : Step v l w) (hl : ∀ path, l.1 ≠ .create path) :
    CallEnds v w l := by
  obtain ⟨op, res⟩ := l
  cases op with
  | create path => exact absurd rfl (hl path)
  | «open» path =>
    cases hs
    exact open_ends v path
  | read fd size =>
    obtain ⟨⟨bs, u⟩, hc, he⟩ := Option.map_eq_some_iff.mp hs
    cases he
    exact read_ends hc
  | write fd buf =>
    obtain ⟨⟨n, u⟩, hc, he⟩ := Option.map_eq_some_iff.mp hs
    cases he
    exact write_ends hc
  | lseek fd offset =>
    cases hs
    exact lseek_ends v fd offset
  | close fd =>
    obtain ⟨⟨ok, u⟩, hc, he⟩ := Option.map_eq_some_iff.mp hs
    cases he
    exact close_ends hc
  | unlink path =>
    cases hs
    exact unlink_ends v path
  | mkdir path =>
    cases hs
    exact mkdir_ends v path
  | rmdir path =>
    cases hs
    exact rmdir_ends v path
  | stat path =>
    cases hs
    exact stat_ends v path

lemma step_cases {l : Op × Result} (hs : Step v l w) :
    (∃ path fd, l = (.create path, .fd fd) ∧ v.vfsCreate path = some (fd, w)) ∨
      ∀ path, l.1 ≠ .create path := by
  obtain ⟨op, res⟩ := l
  cases op with
  | create path =>
    obtain ⟨⟨fd, u⟩, hc, he⟩ := Option.map_eq_some_iff.mp hs
    cases he
    exact .inl ⟨path, fd, rfl, hc⟩
  | _ => exact .inr fun path hl => by cases hl

end CallEnds

lemma Ready.callEnds {v w : Vfs} {root fs : ℕ} {l : Op × Result} (h : Ready v root fs)
    (hends : CallEnds v w l) : Ready w root fs := by
  cases hends with
  | unchanged hi hheap hw _ =>
    rw [hw]
    exact h.ramfs (hi ▸ h.sound) (h.storage.same hi hheap)
  | opened _ _ hw =>
    rw [hw]
    exact (h.cursor _).files rfl rfl rfl
  | moved hw _ =>
    rw [hw]
    exact h.files rfl rfl rfl
  | written ha hw =>
    rw [hw]
    cases h.storage.write_ends ha with
    | closed _ => exact h.files rfl rfl rfl
    | failed _ => exact h.failedMalloc.files rfl rfl rfl
    | written _ _ hc => exact (h.written hc).files rfl rfl rfl
  | closed hw =>
    rw [hw]
    exact h.files rfl rfl rfl
  | @unlinked path next mount _ hw =>
    have hn := h.cursor next
    rw [hw]
    exact hn.ramfs (hn.sound.step (o := .unlink (relPath mount path)) rfl)
      (hn.storage.unlink hn.sound _)
  | made hw =>
    rw [hw]
    exact h.mkdir _
  | @removed path mount _ hw =>
    rw [hw]
    exact h.ramfs (h.sound.step (o := .rmdir (relPath mount path)) rfl) (h.storage.rmdir h.sound _)

lemma Ready.step {v w : Vfs} {root fs : ℕ} {l : Op × Result} (h : Ready v root fs)
    (hstep : Step v l w) : Ready w root fs := by
  rcases step_cases hstep with ⟨path, fd, rfl, hc⟩ | hl
  · exact h.vfsCreate hc
  · exact h.callEnds (call_ends hstep hl)

structure Quiet (v w : Vfs) (l : Op × Result) : Prop where
  nodes : w.nodes = v.nodes
  mounts : w.mounts = v.mounts
  descriptor : ∀ fd, (w.isOpen fd = v.isOpen fd ∧ (w.files fd).node = (v.files fd).node) ∨
    (l.1 = .close fd ∧ w.isOpen fd = false) ∨ ∃ path, l = (.open path, .fd (some fd))
  opened : ∀ path fd, l = (.open path, .fd (some fd)) → FreeFd v fd ∧ w.isOpen fd = true ∧
    ∃ i, (v.vfsResolve path).1 = some i ∧ (w.files fd).node = some i

lemma Quiet.of_files {v w : Vfs} {l : Op × Result} (hn : w.nodes = v.nodes) (hm : w.mounts = v.mounts)
    (hf : w.files = v.files) (hl : ∀ path fd, l ≠ (.open path, .fd (some fd))) : Quiet v w l where
  nodes := hn
  mounts := hm
  descriptor fd := by
    left
    rw [isOpen, isOpen, hf]
    exact ⟨rfl, rfl⟩
  opened path fd he := absurd he (hl path fd)

lemma Quiet.of_setFile {v w x : Vfs} {l : Op × Result} (hn : w.nodes = v.nodes)
    (hm : w.mounts = v.mounts) (hf : w.files = v.files) {fd offset : ℕ}
    (hx : x = w.setFile fd { v.files fd with offset := offset })
    (hl : ∀ path fd, l ≠ (.open path, .fd (some fd))) : Quiet v x l where
  nodes := by
    rw [hx]
    exact hn
  mounts := by
    rw [hx]
    exact hm
  descriptor i := by
    left
    rw [hx, isOpen, isOpen, setFile, hf]
    by_cases hi : i = fd
    · subst hi
      simp only [Function.update_self, and_self]
    · simp only [Function.update_of_ne hi, and_self]
  opened path fd he := absurd he (hl path fd)

lemma quiet_step {v w : Vfs} {l : Op × Result} (hs : Step v l w) (hl : ∀ path, l.1 ≠ .create path) :
    Quiet v w l := by
  cases call_ends hs hl with
  | unchanged _ _ hw hl =>
    rw [hw]
    exact .of_files rfl rfl rfl hl
  | @opened path node fd next hnode hfd hw =>
    rw [hw]
    refine ⟨rfl, rfl, fun i => ?_, fun path' i hi => ?_⟩
    · by_cases hi : i = fd
      · subst hi
        exact .inr (.inr ⟨path, rfl⟩)
      · left
        simp [isOpen, setFile, setCursor, hi]
    · simp only [Prod.mk.injEq, Op.open.injEq, Result.fd.injEq, Option.some.injEq] at hi
      obtain ⟨rfl, rfl⟩ := hi
      refine ⟨hfd, ?_, node, hnode, ?_⟩
      · simp [isOpen, setFile, hfd.1]
      · simp [setFile]
  | moved hw hl => exact .of_setFile rfl rfl rfl hw hl
  | @written fd n i offset buf r _ hw =>
    exact .of_setFile (w := { v with ramfs := r }) rfl rfl rfl hw (by simp)
  | @closed fd ok hw =>
    rw [hw]
    refine ⟨rfl, rfl, fun i => ?_, by simp⟩
    by_cases hi : i = fd
    · subst hi
      refine .inr (.inl ⟨rfl, ?_⟩)
      simp [isOpen, setFile]
    · left
      simp [isOpen, setFile, hi]
  | unlinked hw =>
    rw [hw]
    exact .of_files rfl rfl rfl (by simp)
  | made hw =>
    rw [hw]
    exact .of_files rfl rfl rfl (by simp)
  | removed hw =>
    rw [hw]
    exact .of_files rfl rfl rfl (by simp)

lemma booted_eq {v : Vfs} (h : Booted v) :
    ∃ outcome bytes, outcome 0 = some bytes ∧ v =
      { ramfs :=
          { inodes := (Ramfs.ramfsInit (powerOn outcome).ramfs).inodes
            heap := ⟨outcome, 1, Function.update (fun _ => none) 0 (some ⟨vfsNodeSize, bytes⟩)⟩
            strtokNext := none }
        nodes := Function.update (powerOn outcome).nodes 0
          ⟨strncpy 31 [slash], .dir, 0, ByteMemory.read32 bytes fsFdOffset, none, []⟩
        files := fun _ => ⟨none, 0, false⟩
        mounts := [rootMount 0 0] } := by
  obtain ⟨outcome, h⟩ := h
  cases hout : outcome 0 with
  | none =>
    simp [boot, vfsMount, vfsMaxFs, vfsInit, mallocNode, Malloc.malloc, Ramfs.ramfsInit, powerOn, hout]
      at h
  | some bytes =>
    refine ⟨outcome, bytes, hout, ?_⟩
    simp [boot, vfsMount, vfsMaxFs, vfsInit, mallocNode, Malloc.malloc, Ramfs.ramfsInit, powerOn, hout]
      at h
    rw [← h]
    simp [setNode, powerOn, Ramfs.ramfsInit, rootMount]

lemma Booted.leaf {v : Vfs} (h : Booted v) (i : ℕ) : (v.nodes i).children = [] := by
  obtain ⟨outcome, bytes, _, rfl⟩ := booted_eq h
  by_cases hi : i = 0
  · subst hi
    simp
  · simp [hi, powerOn]

lemma Booted.ready {v : Vfs} (h : Booted v) : Ready v 0 0 := by
  obtain ⟨outcome, bytes, _, rfl⟩ := booted_eq h
  have hleaf : ∀ i, (Function.update (powerOn outcome).nodes 0 ⟨strncpy 31 [slash], .dir, 0,
      ByteMemory.read32 bytes fsFdOffset, none, []⟩ i).children = [] := h.leaf
  have hempty : ∀ i, ((Ramfs.ramfsInit (powerOn outcome).ramfs).inodes i).data = none ∧
      ((Ramfs.ramfsInit (powerOn outcome).ramfs).inodes i).size = 0 ∧
        ((Ramfs.ramfsInit (powerOn outcome).ramfs).inodes i).capacity = 0 := by
    intro i
    by_cases hi : i = 0
    · subst hi
      exact ⟨rfl, rfl, rfl⟩
    · simp [Ramfs.ramfsInit, hi, powerOn, Ramfs.emptyInode]
  refine ⟨rfl, ⟨⟨fun i j n m k hk => ?_, fun i n hn => ?_⟩, Nat.one_pos, fun i c hc => ?_,
    fun i _ => hleaf i, by simp⟩, Ramfs.init_sound _, ⟨fun i _ _ => (hempty i).2.2, fun i p _ hp => ?_,
    fun i _ => by simp only [(hempty i).2.1, (hempty i).2.2, le_refl],
    fun i _ => by simp only [(hempty i).2.2]; omega, fun i j p _ _ hp => ?_, fun p hp => ?_⟩⟩
  · rw [mem_links] at hk
    simp only [hleaf, List.not_mem_nil, false_and] at hk
  · rw [mem_links] at hn
    simp only [hleaf, List.not_mem_nil, false_and] at hn
  · simp only [hleaf, List.not_mem_nil] at hc
  · simp only [(hempty i).1] at hp
    cases hp
  · simp only [(hempty i).1] at hp
    cases hp
  · have hne : p ≠ 0 := by
      simp only at hp
      omega
    simp [hne]

lemma ready_of_run {v₀ v : Vfs} {ls : List (Op × Result)} (hb : Booted v₀)
    (hrun : Transition.Run Step v₀ ls v) : Ready v 0 0 :=
  hrun.invariant (I := fun v => Ready v 0 0) (fun _ _ _ h hs => h.step hs) hb.ready

def bootedZero : Vfs := (boot fun _ => some fun _ => 0).2

lemma bootedZero_booted : Booted bootedZero := ⟨fun _ => some fun _ => 0, rfl⟩

def next (v : Vfs) (op : Op) : Vfs := ((v.exec op).map Prod.snd).getD v

lemma step_next {v : Vfs} {op : Op} {res : Result} (h : (v.exec op).map Prod.fst = some res) :
    Step v (op, res) (v.next op) := by
  obtain ⟨⟨res', w⟩, he, hres⟩ := Option.map_eq_some_iff.mp h
  simp only at hres
  subst hres
  rw [Step, next, he]
  rfl

end Veni.Filesystem.Vfs
