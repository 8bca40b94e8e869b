import Veni.Filesystem.VfsMounts
import Veni.Filesystem.VfsResolve

/-! A mount and the `vfs_unmount` of its path. -/

namespace Veni.Filesystem.Vfs

open Veni.Libc Veni.Lib.FirstMax Veni.Lib.Transition

/-- After a `vfs_mount` that returns 0, `vfs_unmount` of the path returns 0 and the mounts are as they
were before both. -/
def Undone (v : Vfs) (fs : ℕ) (path : CString) : Prop :=
  (v.vfsMount fs path).1 = true →
    ((v.vfsMount fs path).2.vfsUnmount path).1 = true ∧
      ((v.vfsMount fs path).2.vfsUnmount path).2.mounts = v.mounts ∧
      ∀ p, ((v.vfsMount fs path).2.vfsUnmount path).2.findMount p = v.findMount p

/-- If there is room for the mount, its path is not empty, fits in the table and is not in it yet. -/
def Distinguished (v : Vfs) (path : CString) : Prop :=
  v.mounts.length < vfsMaxFs → v.ramfs.heap.outcome v.ramfs.heap.calls ≠ none →
    path ≠ [] ∧ path.length ≤ 255 ∧ ∀ m ∈ v.mounts, m.mountPath.val ≠ path

def RootsBelow (v : Vfs) : Prop := ∀ m ∈ v.mounts, m.node < v.ramfs.heap.calls

section Mounting

variable {v w : Vfs} {fs : ℕ} {path : CString}

lemma mount_cases (v : Vfs) (fs : ℕ) (path : CString) :
    ((v.vfsMount fs path).1 = false ∧ (v.vfsMount fs path).2.mounts = v.mounts ∧
        v.ramfs.heap.calls ≤ (v.vfsMount fs path).2.ramfs.heap.calls ∧
        ¬ (v.mounts.length < vfsMaxFs ∧ v.ramfs.heap.outcome v.ramfs.heap.calls ≠ none)) ∨
      ((v.vfsMount fs path).1 = true ∧
        (v.vfsMount fs path).2.mounts = v.mounts ++ [⟨strncpy 255 path, v.ramfs.heap.calls, fs⟩] ∧
        (v.vfsMount fs path).2.ramfs.heap.calls = v.ramfs.heap.calls + 1 ∧
        v.mounts.length < vfsMaxFs ∧ v.ramfs.heap.outcome v.ramfs.heap.calls ≠ none) := by
  unfold vfsMount
  split
  · next hfull => exact .inl ⟨rfl, rfl, le_rfl, fun h => absurd hfull (not_le.mpr h.1)⟩
  · next hroom =>
    simp only [mallocNode]
    rcases v.ramfs.heap.malloc_cases vfsNodeSize with ⟨hout, hm⟩ | ⟨bytes, hout, hm⟩
    · rw [hm]
      exact .inl ⟨rfl, rfl, Nat.le_succ _, fun h => h.2 hout⟩
    · rw [hm]
      exact .inr ⟨rfl, rfl, rfl, not_le.mp hroom, by rw [hout]; simp⟩

lemma unmount_heap (v : Vfs) (path : CString) :
    (v.vfsUnmount path).2.ramfs.heap.calls = v.ramfs.heap.calls ∧
      (v.vfsUnmount path).2.mounts.Sublist v.mounts := by
  rcases unmount_cases v path with ⟨_, he⟩ | ⟨i, m, _, _, he⟩
  · rw [he]
    exact ⟨rfl, List.Sublist.refl _⟩
  · rw [he]
    exact ⟨rfl, List.eraseIdx_sublist v.mounts i⟩

lemma RootsBelow.vfsMount (h : RootsBelow v) (fs : ℕ) (path : CString) :
    RootsBelow (v.vfsMount fs path).2 := by
  rcases mount_cases v fs path with ⟨_, hm, hc, _⟩ | ⟨_, hm, hc, _⟩
  · intro m hmem
    rw [hm] at hmem
    exact (h m hmem).trans_le hc
  · intro m hmem
    rw [hm, List.mem_append, List.mem_singleton] at hmem
    rw [hc]
    rcases hmem with hmem | rfl
    · exact (h m hmem).trans (Nat.lt_succ_self _)
    · exact Nat.lt_succ_self _

lemma RootsBelow.vfsUnmount (h : RootsBelow v) (path : CString) : RootsBelow (v.vfsUnmount path).2 := by
  obtain ⟨hc, hsub⟩ := unmount_heap v path
  intro m hm
  rw [hc]
  exact h m (hsub.subset hm)

lemma findMountIdx_self {i : ℕ} {m : VfsMount} (hm : v.mounts[i]? = some m) (hpath : m.mountPath.val = path)
    (hne : path ≠ []) (hfirst : ∀ (j : ℕ) (k : VfsMount), v.mounts[j]? = some k →
      k.mountPath.val = path → i ≤ j) : v.findMountIdx path = some i := by
  rw [findMountIdx, findMountLoop_eq, scan_eq_some]
  refine ⟨m, hm, ?_, ?_, fun j k hk hpass => ?_⟩
  · rw [hpath]
    exact (mountMatches_iff hne).mpr ⟨List.prefix_refl _, hne, .inr (.inl rfl)⟩
  · rw [hpath]
    exact List.length_pos_iff.mpr hne
  · have hpre := isPrefix_of_mountMatches hpass
    rw [hpath]
    rcases Nat.lt_or_ge k.mountPath.val.length path.length with hlt | hge
    · exact .inl hlt
    · have heq := hpre.eq_of_length_le hge
      exact .inr ⟨by rw [heq], hfirst j k hk heq⟩

lemma unmount_eq {i : ℕ} {m : VfsMount} (hi : v.findMountIdx path = some i) (hm : v.mounts[i]? = some m) :
    v.vfsUnmount path = if m.mountPath.val ≠ path then (false, v) else
      (true, { v with ramfs := v.ramfs.freed m.node, mounts := v.mounts.eraseIdx i }) := by
  rw [Vfs.vfsUnmount, hi]
  simp only [hm]
  rfl

lemma findMount_congr (h : w.mounts = v.mounts) (p : CString) : w.findMount p = v.findMount p := by
  rw [findMount, findMountIdx, h, findMount, findMountIdx]

lemma unmount_lost (h : path = [] ∨ 255 < path.length) : (w.vfsUnmount path).1 = false := by
  have hno : ∀ m : VfsMount, m.mountPath.val = path → path = [] := by
    intro m hm
    have hlt := m.mountPath.property
    rw [hm] at hlt
    exact h.resolve_right (by omega)
  cases hidx : w.findMountIdx path with
  | none => rw [vfsUnmount, hidx]
  | some i =>
    have hi := hidx
    rw [findMountIdx, findMountLoop_eq, scan_eq_some] at hi
    obtain ⟨m, hm⟩ := hi
    rw [unmount_eq hidx hm.at_index, if_pos]
    intro hpath
    have hpos := hm.pos
    rw [hpath, hno m hpath] at hpos
    exact absurd hpos (lt_irrefl 0)

end Mounting

section Undone

variable {v w : Vfs} {node fs : ℕ} {path : CString}
  (hw : w.mounts = v.mounts ++ [⟨strncpy 255 path, node, fs⟩])

include hw

lemma unmount_new (hne : path ≠ []) (hlen : path.length ≤ 255)
    (hnew : ∀ m ∈ v.mounts, m.mountPath.val ≠ path) :
    (w.vfsUnmount path).1 = true ∧ (w.vfsUnmount path).2.mounts = v.mounts := by
  have hpath : (strncpy 255 path).val = path := List.take_of_length_le hlen
  have hlast : w.mounts[v.mounts.length]? = some ⟨strncpy 255 path, node, fs⟩ := by simp [hw]
  have hidx : w.findMountIdx path = some v.mounts.length := by
    refine findMountIdx_self hlast hpath hne fun j k hk hkpath => ?_
    by_contra hlt
    rw [hw, List.getElem?_append_left (not_le.mp hlt)] at hk
    exact hnew k (List.mem_of_getElem? hk) hkpath
  rw [unmount_eq hidx hlast, if_neg (not_not.mpr hpath)]
  refine ⟨rfl, ?_⟩
  simp only [hw, List.eraseIdx_append_of_length_le le_rfl, Nat.sub_self, List.eraseIdx_cons_zero,
    List.append_nil]

lemma unmount_older (hbelow : ∀ m ∈ v.mounts, m.node < node) {m : VfsMount} (hm : m ∈ v.mounts)
    (hpath : m.mountPath.val = path) (hne : path ≠ []) : (w.vfsUnmount path).2.mounts ≠ v.mounts := by
  obtain ⟨j, hj⟩ := List.mem_iff_getElem?.mp hm
  have hlt := (List.getElem?_eq_some_iff.mp hj).1
  have hjw : w.mounts[j]? = some m := by rw [hw, List.getElem?_append_left hlt, hj]
  have hpass : mountMatches path m.mountPath.val = true := by
    rw [hpath]
    exact (mountMatches_iff hne).mpr ⟨List.prefix_refl _, hne, .inr (.inl rfl)⟩
  obtain ⟨i, k, hidx, hk⟩ := findMountIdx_of_passes hjw hpass (by rw [hpath]; exact hne)
  have hkprefix := isPrefix_of_mountMatches hk.passes
  have hkmax := hk.max j m hjw hpass
  have hkpath : k.mountPath.val = path := hkprefix.eq_of_length_le (by rw [← hpath]; omega)
  have hij : i ≤ j := by
    rw [hkpath, hpath] at hkmax
    omega
  rw [unmount_eq hidx hk.at_index, if_neg (not_not.mpr hkpath)]
  intro heq
  have hmem : (⟨strncpy 255 path, node, fs⟩ : VfsMount) ∈ v.mounts := by
    rw [← heq]
    simp [hw, List.eraseIdx_append_of_lt_length (hij.trans_lt hlt)]
  exact absurd (hbelow _ hmem) (lt_irrefl _)

end Undone

lemma RootsBelow.undone_iff {v : Vfs} (h : RootsBelow v) (fs : ℕ) (path : CString) :
    Undone v fs path ↔ Distinguished v path := by
  rcases mount_cases v fs path with ⟨hfail, _, _, hno⟩ | ⟨hok, hm, _, hroom, hout⟩
  · refine iff_of_true (fun hok => ?_) fun hroom hout => absurd ⟨hroom, hout⟩ hno
    rw [hfail] at hok
    cases hok
  · constructor
    · intro hundone _ _
      obtain ⟨htrue, hmounts, _⟩ := hundone hok
      have hfits : path ≠ [] ∧ path.length ≤ 255 := by
        by_contra hcon
        have hlost : path = [] ∨ 255 < path.length := by
          by_cases hnil : path = []
          · exact .inl hnil
          · exact .inr (not_le.mp fun hle => hcon ⟨hnil, hle⟩)
        have hfalse : ((v.vfsMount fs path).2.vfsUnmount path).1 = false := unmount_lost hlost
        rw [htrue] at hfalse
        cases hfalse
      exact ⟨hfits.1, hfits.2, fun m hmem hpath => unmount_older hm h hmem hpath hfits.1 hmounts⟩
    · intro hdist _
      obtain ⟨hne, hlen, hnew⟩ := hdist hroom hout
      obtain ⟨htrue, hmounts⟩ := unmount_new hm hne hlen hnew
      exact ⟨htrue, hmounts, fun p => findMount_congr hmounts p⟩

def Mounting : MountOp → Prop
  | .call _ => False
  | _ => True

lemma run_rootsBelow {outcome : ℕ → Option (ℕ → UInt8)} {ops : List MountOp} {v : Vfs}
    (h : Run MountStep (started outcome) ops v) (hops : ∀ o ∈ ops, Mounting o) : RootsBelow v := by
  refine h.invariant_along (I := RootsBelow) (Q := fun _ o _ => Mounting o) (fun x o y hx hs ho => ?_)
    (along_of_forall _ hops) fun m hm => absurd hm List.not_mem_nil
  cases o with
  | call op => exact ho.elim
  | mount fs path =>
    cases hs
    exact hx.vfsMount fs path
  | unmount path =>
    cases hs
    exact hx.vfsUnmount path

/-- In every reachable mount table `vfs_unmount` undoes a `vfs_mount` if and only if the path is not
empty, fits in the table and is not in it yet. -/
theorem mount_undone_iff {outcome : ℕ → Option (ℕ → UInt8)} {ops : List MountOp} {v : Vfs}
    (h : Run MountStep (started outcome) ops v) (hops : ∀ o ∈ ops, Mounting o) (fs : ℕ)
    (path : CString) : Undone v fs path ↔ Distinguished v path :=
  (run_rootsBelow h hops).undone_iff fs path

theorem mount_undone_iff_nested :
    Undone ((started fun _ => some fun _ => 0).vfsMount 0 (cstring "/")).2 1 (cstring "/foo") ↔
      Distinguished ((started fun _ => some fun _ => 0).vfsMount 0 (cstring "/")).2 (cstring "/foo") :=
  mount_undone_iff (show Run MountStep (started fun _ => some fun _ => 0) [.mount 0 (cstring "/")] _ from
    .single rfl) (fun o ho => by
      rw [List.mem_singleton.mp ho]
      trivial) 1 (cstring "/foo")

/-- A mount at the empty path stays, and the second of two mounts at `/` stays in place of the first. -/
theorem mount_not_undone :
    ¬ Undone (started fun _ => some fun _ => 0) 0 [] ∧
      ¬ Undone ((started fun _ => some fun _ => 0).vfsMount 0 (cstring "/")).2 1 (cstring "/") := by
  constructor
  · intro h
    exact absurd (h rfl).1 (by decide)
  · intro h
    have hmounts := congrArg (List.map VfsMount.node) (h rfl).2.1
    exact absurd hmounts (by decide)

end Veni.Filesystem.Vfs
