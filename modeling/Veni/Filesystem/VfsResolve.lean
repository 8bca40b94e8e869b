import Veni.Filesystem.VfsTree
import Veni.Lib.FirstMax

/-! The mount that a path belongs to, and the node that it leads to. -/

namespace Veni.Filesystem.Vfs

open Veni.Libc Veni.Lib.Tokens Veni.Lib.NameGraph Veni.Lib.FirstMax

def Matches (path mountPath : CString) : Prop :=
  mountPath ≠ [] ∧ (mountPath = [slash] ∨ path = mountPath ∨ mountPath ++ [slash] <+: path)

/-- The first of the matching mounts with the longest mount path. -/
def Chosen (mounts : List VfsMount) (path : CString) (m : VfsMount) : Prop :=
  ∃ i : ℕ, mounts[i]? = some m ∧ Matches path m.mountPath.val ∧
    ∀ (j : ℕ) (k : VfsMount), mounts[j]? = some k → Matches path k.mountPath.val →
      k.mountPath.val.length < m.mountPath.val.length ∨
        k.mountPath.val.length = m.mountPath.val.length ∧ i ≤ j

def segments (m : VfsMount) (path : CString) : List CString :=
  tokens isSlash (path.drop m.mountPath.val.length)

lemma findMountLoop_eq (path : CString) (i : ℕ) (best : Option ℕ) (top : ℕ) (ms : List VfsMount) :
    findMountLoop path i best top ms =
      scan (fun m => mountMatches path m.mountPath.val) (fun m => m.mountPath.val.length) i best top ms := by
  induction ms generalizing i best top with
  | nil => rfl
  | cons m ms ih => rw [findMountLoop, scan, ih, ih]

lemma mountMatches_iff {path m : CString} (hne : m ≠ []) :
    mountMatches path m = true ↔ m <+: path ∧ Matches path m := by
  simp only [mountMatches, Matches, Bool.and_eq_true, List.isPrefixOf_iff_prefix, Bool.or_eq_true,
    decide_eq_true_eq]
  refine and_congr_right fun hpre => ?_
  obtain ⟨rest, rfl⟩ := hpre
  have hroot : m = [slash] → (m ++ rest).head? = some slash := by
    rintro rfl
    rfl
  have hnext : (m ++ [slash] <+: m ++ rest) ↔ rest.head? = some slash := by
    rw [List.prefix_append_right_inj]
    cases rest with
    | nil => simp
    | cons c cs => simp [List.cons_prefix_cons, eq_comm]
  have hend : m ++ rest = m ↔ rest = [] := by simp
  rw [List.drop_left, hnext, hend]
  tauto

lemma Matches.isPrefix {path m : CString} (h : Matches path m) (habs : path.head? = some slash) :
    m <+: path := by
  obtain ⟨_, rfl | rfl | hpre⟩ := h
  · cases path with
    | nil => cases habs
    | cons c cs =>
      cases habs
      exact ⟨cs, rfl⟩
  · exact List.prefix_refl path
  · exact (List.prefix_append m [slash]).trans hpre

lemma isPrefix_of_mountMatches {path m : CString} (h : mountMatches path m = true) : m <+: path := by
  rw [mountMatches, Bool.and_eq_true, List.isPrefixOf_iff_prefix] at h
  exact h.1

lemma findMountIdx_of_passes {v : Vfs} {path : CString} {j : ℕ} {m : VfsMount} (hm : v.mounts[j]? = some m)
    (hpass : mountMatches path m.mountPath.val = true) (hne : m.mountPath.val ≠ []) :
    ∃ i k, v.findMountIdx path = some i ∧ IsFirstMax (fun m => mountMatches path m.mountPath.val)
      (fun m => m.mountPath.val.length) v.mounts i k := by
  cases hidx : v.findMountIdx path with
  | none =>
    rw [findMountIdx, findMountLoop_eq, scan_eq_none] at hidx
    exact absurd (List.length_eq_zero_iff.mp (hidx m (List.mem_of_getElem? hm) hpass)) hne
  | some i =>
    have hi := hidx
    rw [findMountIdx, findMountLoop_eq, scan_eq_some] at hi
    obtain ⟨k, hk⟩ := hi
    exact ⟨i, k, rfl, hk⟩

lemma Matches.not_cut {path m rest : CString} {c : CChar} (h : Matches path m) (hroot : m ≠ [slash])
    (hc : c ≠ slash) (hpath : path = m ++ c :: rest) : False := by
  subst hpath
  obtain ⟨_, hm | hm | hpre⟩ := h
  · exact hroot hm
  · simp at hm
  · rw [List.prefix_append_right_inj, List.cons_prefix_cons] at hpre
    exact hc hpre.1.symm

section Absolute

variable {v : Vfs} {path : CString} (habs : path.head? = some slash)

include habs

lemma passes_iff (m : CString) : mountMatches path m = true ∧ 0 < m.length ↔ Matches path m := by
  rw [List.length_pos_iff]
  constructor
  · rintro ⟨hm, hne⟩
    exact ((mountMatches_iff hne).mp hm).2
  · intro hm
    exact ⟨(mountMatches_iff hm.1).mpr ⟨hm.isPrefix habs, hm⟩, hm.1⟩

lemma findMount_eq_some {m : VfsMount} : v.findMount path = some m ↔ Chosen v.mounts path m := by
  have hscan : ∀ i, v.findMountIdx path = some i ↔ ∃ a, IsFirstMax
      (fun m => mountMatches path m.mountPath.val) (fun m => m.mountPath.val.length) v.mounts i a := by
    intro i
    rw [findMountIdx, findMountLoop_eq, scan_eq_some]
  rw [findMount, Option.bind_eq_some_iff]
  constructor
  · rintro ⟨i, hi, hm⟩
    obtain ⟨a, ha⟩ := (hscan i).mp hi
    cases ha.at_index.symm.trans hm
    exact ⟨i, hm, (passes_iff habs _).mp ⟨ha.passes, ha.pos⟩,
      fun j k hk hmatch => ha.max j k hk ((passes_iff habs _).mpr hmatch).1⟩
  · rintro ⟨i, hm, hmatch, hmax⟩
    obtain ⟨hpass, hpos⟩ := (passes_iff habs _).mpr hmatch
    refine ⟨i, (hscan i).mpr ⟨m, hm, hpass, hpos, fun j k hk hkpass => ?_⟩, hm⟩
    rcases Nat.eq_zero_or_pos k.mountPath.val.length with hz | hkpos
    · exact .inl (by simp only [hz]; exact hpos)
    · exact hmax j k hk ((passes_iff habs _).mp ⟨hkpass, hkpos⟩)

lemma findMount_eq_none :
    v.findMount path = none ↔ ∀ m ∈ v.mounts, ¬ Matches path m.mountPath.val := by
  constructor
  · intro hnone m hm hmatch
    obtain ⟨hpass, _⟩ := (passes_iff habs _).mpr hmatch
    obtain ⟨j, hj⟩ := List.mem_iff_getElem?.mp hm
    obtain ⟨i, k, hidx, hk⟩ := findMountIdx_of_passes hj hpass hmatch.1
    rw [findMount, hidx, Option.bind_some, hk.at_index] at hnone
    cases hnone
  · intro hall
    cases hm : v.findMount path with
    | none => rfl
    | some m =>
      obtain ⟨i, hi, hmatch, _⟩ := (findMount_eq_some habs).mp hm
      exact absurd hmatch (hall m (List.mem_of_getElem? hi))

end Absolute

lemma length_relPath_le (m : VfsMount) (path : CString) : (relPath m path).length ≤ path.length := by
  have hdrop : (path.drop m.mountPath.val.length).length ≤ path.length := by simp
  rw [relPath]
  split
  · rw [List.length_tail]
    omega
  · exact hdrop

lemma tokens_relPath (m : VfsMount) (path : CString) : tokens isSlash (relPath m path) = segments m path := by
  rw [relPath, segments]
  cases path.drop m.mountPath.val.length with
  | nil => rfl
  | cons c cs =>
    simp only [List.head?_cons, Option.some.injEq, List.tail_cons]
    split
    · next hc =>
      subst hc
      exact (tokens_delim isSlash (by decide) cs).symm
    · rfl

lemma segments_eq (m : VfsMount) (path : CString) (hlen : (relPath m path).length ≤ 255) :
    Ramfs.components (relPath m path) = segments m path := by
  rw [Ramfs.components, List.take_of_length_le hlen, tokens_relPath]

lemma resolve_of_findMount {v : Vfs} {path : CString} (habs : path.head? = some slash) {m : VfsMount}
    (hm : v.findMount path = some m) :
    (v.vfsResolve path).1 = walk (links v) m.node (Ramfs.components (relPath m path)) := by
  have hne : v.mounts ≠ [] := by
    intro hnil
    rw [findMount, findMountIdx, hnil] at hm
    cases hm
  rw [vfsResolve, if_neg (not_or.mpr ⟨not_not.mpr habs, hne⟩), hm]
  simp only
  split
  · next hnil =>
    rw [hnil]
    rfl
  · exact resolveLoop_eq (Nat.lt_succ_of_le (length_tokens_le isSlash _))

lemma resolve_of_no_mount {v : Vfs} {path : CString} (hm : v.findMount path = none) :
    (v.vfsResolve path).1 = none := by
  rw [vfsResolve]
  split
  · rfl
  · rw [hm]

/-- `vfs_resolve` follows the segments after the longest matching mount point, and returns NULL
exactly when no mount matches or a segment has no child. -/
theorem resolve_longest_mount (v : Vfs) {path : CString} (habs : path.head? = some slash)
    (hlen : ∀ m, Chosen v.mounts path m → (relPath m path).length ≤ 255) :
    (∀ i, (v.vfsResolve path).1 = some i ↔
      ∃ m, Chosen v.mounts path m ∧ walk (links v) m.node (segments m path) = some i) ∧
    ((v.vfsResolve path).1 = none ↔ (∀ m ∈ v.mounts, ¬ Matches path m.mountPath.val) ∨
      ∃ m, Chosen v.mounts path m ∧ walk (links v) m.node (segments m path) = none) ∧
    ∀ (m : VfsMount) (c : CChar) (rest : CString), m.mountPath.val ≠ [slash] → c ≠ slash →
      path = m.mountPath.val ++ c :: rest → v.findMount path ≠ some m := by
  refine ⟨fun i => ?_, ?_, fun m c rest hroot hc hpath hm => ?_⟩
  · cases hm : v.findMount path with
    | none =>
      rw [resolve_of_no_mount hm]
      refine iff_of_false (by simp) ?_
      rintro ⟨m, hchosen, _⟩
      cases hm.symm.trans ((findMount_eq_some habs).mpr hchosen)
    | some m =>
      have hchosen := (findMount_eq_some habs).mp hm
      rw [resolve_of_findMount habs hm, segments_eq m path (hlen m hchosen)]
      constructor
      · exact fun hw => ⟨m, hchosen, hw⟩
      · rintro ⟨k, hk, hw⟩
        cases hm.symm.trans ((findMount_eq_some habs).mpr hk)
        exact hw
  · rw [← findMount_eq_none habs]
    cases hm : v.findMount path with
    | none => exact iff_of_true (resolve_of_no_mount hm) (.inl rfl)
    | some m =>
      have hchosen := (findMount_eq_some habs).mp hm
      rw [resolve_of_findMount habs hm, segments_eq m path (hlen m hchosen)]
      constructor
      · exact fun hw => .inr ⟨m, hchosen, hw⟩
      · rintro (hnone | ⟨k, hk, hw⟩)
        · cases hnone
        · cases hm.symm.trans ((findMount_eq_some habs).mpr hk)
          exact hw
  · obtain ⟨_, _, hmatch, _⟩ := (findMount_eq_some habs).mp hm
    exact hmatch.not_cut hroot hc hpath

def mountedTwice : Vfs :=
  (((powerOn fun _ => some fun _ => 0).vfsMount 0 (cstring "/")).2.vfsMount 1 (cstring "/foo")).2

def mountedFile : Vfs :=
  let v := ((boot fun _ => some fun _ => 0).2.vfsMount 0 (cstring "/foo")).2
  ((v.vfsCreate (cstring "/foo/bar")).getD (none, v)).2

theorem resolve_longest_mount_nested :
    ∃ m, Chosen mountedFile.mounts (cstring "/foo//bar/") m ∧
      walk (links mountedFile) m.node (segments m (cstring "/foo//bar/")) = some 2 := by
  have habs : (cstring "/foo//bar/").head? = some slash := by decide
  have hlen : ∀ m, Chosen mountedFile.mounts (cstring "/foo//bar/") m →
      (relPath m (cstring "/foo//bar/")).length ≤ 255 := by
    intro m _
    exact (length_relPath_le m (cstring "/foo//bar/")).trans (by decide)
  exact ((resolve_longest_mount mountedFile habs hlen).1 2).mp rfl

end Veni.Filesystem.Vfs
