import Veni.Filesystem.VfsDirectories
import Veni.Filesystem.VfsFiles

/-! How `vfs_create` ends, and what the directories that it makes leave as it was. -/

namespace Veni.Filesystem.Vfs

open Veni.Libc Veni.Lib.Tokens Veni.Lib.NameGraph

structure Kept (v w : Vfs) (root : ℕ) : Prop where
  node : ∀ i, IsNode v root i → IsNode w root i ∧ (w.nodes i).type = (v.nodes i).type ∧
    (w.nodes i).fsFd = (v.nodes i).fsFd
  walk : ∀ ns i, walk (links v) root ns = some i → walk (links w) root ns = some i

section Kept

variable {u v w : Vfs} {root fs : ℕ}

lemma Kept.refl (v : Vfs) (root : ℕ) : Kept v v root := ⟨fun _ hi => ⟨hi, rfl, rfl⟩, fun _ _ h => h⟩

lemma Kept.trans (h : Kept u v root) (g : Kept v w root) : Kept u w root where
  node i hi := by
    obtain ⟨hv, ht, hf⟩ := h.node i hi
    obtain ⟨hw, ht', hf'⟩ := g.node i hv
    exact ⟨hw, ht'.trans ht, hf'.trans hf⟩
  walk ns i hi := g.walk ns i (h.walk ns i hi)

lemma Kept.of_nodes (h : w.nodes = v.nodes) : Kept v w root where
  node i hi := by
    rw [IsNode, h]
    exact ⟨hi, rfl, rfl⟩
  walk ns i hi := by
    rw [links_congr h]
    exact hi

lemma NewNode.kept {current : ℕ} {x : VfsNode} (h : NewNode v w current x) (hr : Rooted v root)
    (hc : current < v.ramfs.heap.calls) (hx : x.children = []) : Kept v w root where
  node i hi := by
    obtain ⟨cs, hcs⟩ := h.keeps (hr.isNode_lt hi).ne
    rw [hcs]
    exact ⟨h.isNode_old hr hi, rfl, rfl⟩
  walk ns i hi := by
    rcases h.walk_or hr hc hx ns with heq | ⟨hnone, _⟩
    · rw [heq, hi]
    · rw [hi] at hnone
      cases hnone

structure DirsOnly (v w : Vfs) (root : ℕ) : Prop where
  kept : Kept v w root
  new : ∀ i, IsNode w root i → IsNode v root i ∨ (w.nodes i).type = .dir
  files : w.files = v.files

lemma DirsOnly.of_nodes (hn : w.nodes = v.nodes) (hf : w.files = v.files) : DirsOnly v w root where
  kept := .of_nodes hn
  new i hi := by
    rw [IsNode, hn] at hi
    exact .inl hi
  files := hf

lemma DirsOnly.trans (h : DirsOnly u v root) (g : DirsOnly v w root) : DirsOnly u w root where
  kept := h.kept.trans g.kept
  new i hi := by
    rcases g.new i hi with hv | hdir
    · rcases h.new i hv with hu | hdir
      · exact .inl hu
      · exact .inr ((g.kept.node i hv).2.1.trans hdir)
    · exact .inr hdir
  files := g.files.trans h.files

lemma createDir_dirsOnly (h : Ready v root fs) {mount : VfsMount} {current : ℕ}
    (hc : current < v.ramfs.heap.calls) {path : CBuffer 256} {t : CString} {next : Option Cursor}
    {child : Option ℕ} (hdir : createDir (v.setCursor next) mount current path t = (child, w)) :
    DirsOnly v w root := by
  have hready := (h.cursor next).mkdir (appendPath path t).val
  have hcalls := congrArg Malloc.calls
    (Ramfs.mkdir_cases (r := (v.setCursor next).ramfs) h.sound (appendPath path t).val).1
  rcases createDir_cases (v := v.setCursor next) h.sound mount hc path t with
    ⟨_, he⟩ | ⟨_, fsFd, x, he, hnew⟩
  · rw [hdir] at he
    cases he
    exact .of_nodes rfl rfl
  · rw [hdir] at he
    cases he
    have hsame : DirsOnly v { v.setCursor next with
        ramfs := ((v.setCursor next).ramfs.ramfsMkdir (appendPath path t).val).2 } root :=
      .of_nodes rfl rfl
    refine hsame.trans ⟨hnew.kept hready.rooted (hcalls ▸ hc) rfl, fun i hi => ?_, hnew.files⟩
    rcases hnew.isNode hready.rooted rfl hi with hi | rfl
    · exact .inl hi
    · rw [hnew.self]
      exact .inr rfl

end Kept

inductive CreateEnds (v : Vfs) (root fs : ℕ) (rel : CString) : Option (Option ℕ × Vfs) → Prop
  | found {cs : List CString} {t : CString} {node : ℕ} (next : Option Cursor)
      (hts : Ramfs.components rel = cs ++ [t]) (hw : walk (links v) root cs = some node) :
      CreateEnds v root fs rel
        (some (createFile (v.setCursor next) (rootMount root fs) node rel (some t)))
  | failed {cs us : List CString} {t u : CString} {node : ℕ} {w : Vfs}
      (hts : Ramfs.components rel = cs ++ t :: u :: us) (hw : walk (links v) root cs = some node)
      (habsent : target (links v node) t = none) (hmade : DirMade v w root fs node cs t none)
      (hdirs : DirsOnly v w root) : CreateEnds v root fs rel (some (none, w))
  | made {cs us : List CString} {t u : CString} {node child : ℕ} {w : Vfs} (next : Option Cursor)
      (hts : Ramfs.components rel = cs ++ t :: u :: us) (hw : walk (links v) root cs = some node)
      (habsent : target (links v node) t = none) (hend : cs ≠ [] ∨ us = [])
      (hmade : DirMade v w root fs node cs t (some child)) (hdirs : DirsOnly v w root)
      (hlt : child < w.ramfs.heap.calls) : CreateEnds v root fs rel
        (some (createFile (w.setCursor next) (rootMount root fs) child rel (some u)))
  | lost {cs us : List CString} {t u : CString} {node : ℕ}
      (hts : Ramfs.components rel = cs ++ t :: u :: us) (hw : walk (links v) root cs = some node)
      (habsent : target (links v node) t = none)
      (hlost : walk (Ramfs.links v.ramfs.inodes) 0 cs = none) : CreateEnds v root fs rel none
  | failedTwice {us : List CString} {t u x : CString} {child : ℕ} {w z : Vfs}
      (hts : Ramfs.components rel = t :: u :: x :: us) (habsent : target (links v root) t = none)
      (hmade : DirMade v w root fs root [] t (some child)) (hdirs : DirsOnly v w root)
      (hmade' : DirMade w z root fs child [t] u none) (hdirs' : DirsOnly w z root) :
      CreateEnds v root fs rel (some (none, z))
  | madeTwice {us : List CString} {t u x : CString} {child child' : ℕ} {w z : Vfs}
      (next : Option Cursor) (hts : Ramfs.components rel = t :: u :: x :: us)
      (habsent : target (links v root) t = none) (hmade : DirMade v w root fs root [] t (some child))
      (hdirs : DirsOnly v w root) (hmade' : DirMade w z root fs child [t] u (some child'))
      (hdirs' : DirsOnly w z root) (hlt : child' < z.ramfs.heap.calls) : CreateEnds v root fs rel
        (some (createFile (z.setCursor next) (rootMount root fs) child' rel (some x)))

section Ends

variable {v : Vfs} {root fs : ℕ}

lemma Ready.create_cases (h : Ready v root fs) {path : CString} (hp : path.head? = some slash)
    (hne : Ramfs.components (relOf path) ≠ []) :
    CreateEnds v root fs (relOf path) (v.vfsCreate path) := by
  obtain ⟨out, hends, hcreate⟩ := h.create_ends hp hne
  rw [hcreate]
  cases hends with
  | found next hts hw => exact .found next hts hw
  | failed hts hw habsent hpath hdir =>
    exact .failed hts hw habsent (h.dirMade hts hw hpath hdir)
      (createDir_dirsOnly h (h.rooted.walk_lt hw) hdir)
  | @made cs us t u node child next q x next' hts hw habsent hpath hdir hend =>
    exact .made next' hts hw habsent hend (h.dirMade hts hw hpath hdir)
      (createDir_dirsOnly h (h.rooted.walk_lt hw) hdir)
      (createDir_child (v := v.setCursor next) h.sound (h.rooted.walk_lt hw) hdir).2.2.2
  | lost hts hw habsent hlost => exact .lost hts hw habsent hlost
  | @failedTwice us t u x child next next' q q' y z hts habsent hpath hdir hpath' hdir' =>
    have hmade := h.dirMade (show _ = [] ++ t :: u :: x :: us from hts) rfl hpath hdir
    have hlt : child < y.ramfs.heap.calls :=
      (createDir_child (v := v.setCursor next) h.sound h.rooted.root_lt hdir).2.2.2
    exact .failedTwice hts habsent hmade (createDir_dirsOnly h h.rooted.root_lt hdir)
      (h.dirMade_below hts hpath hdir hpath' hdir') (createDir_dirsOnly hmade.ready hlt hdir')
  | @madeTwice us t u x child child' next next' q q' y z next'' hts habsent hpath hdir hpath' hdir' =>
    have hmade := h.dirMade (show _ = [] ++ t :: u :: x :: us from hts) rfl hpath hdir
    have hlt : child < y.ramfs.heap.calls :=
      (createDir_child (v := v.setCursor next) h.sound h.rooted.root_lt hdir).2.2.2
    exact .madeTwice next'' hts habsent hmade (createDir_dirsOnly h h.rooted.root_lt hdir)
      (h.dirMade_below hts hpath hdir hpath' hdir') (createDir_dirsOnly hmade.ready hlt hdir')
      (createDir_child (v := y.setCursor next') hmade.ready.sound hlt hdir').2.2.2

end Ends

end Veni.Filesystem.Vfs
