import Veni.Filesystem.RamfsPaths
import Veni.Filesystem.VfsOperations
import Mathlib.Algebra.BigOperators.Group.Finset.Basic

/-! When `vfs_create` creates the file it is asked for. -/

namespace Veni.Filesystem

open Veni.Lib Veni.Libc Veni.Lib.Tokens Veni.Lib.NameGraph

lemma Path.exists_of_append (p : Path) {cs ds : List CString} (h : p.components = cs ++ ds)
    (hne : cs ≠ []) : ∃ q : Path, q.components = cs :=
  ⟨⟨cs, hne, fun c hc => p.component c (by rw [h]; exact List.mem_append_left _ hc),
    (length_join_le_append slash cs ds).trans (h ▸ p.length_le)⟩, rfl⟩

lemma Path.parent_name (p : Path) {cs : List CString} {t : CString} (h : p.components = cs ++ [t]) :
    p.parent = cs ∧ p.name = t := by
  obtain ⟨hcs, ht⟩ := List.append_inj' (p.parent_append_name.trans h) rfl
  exact ⟨hcs, by simpa using ht⟩

namespace Ramfs

lemma slotUnused_iff (r : Ramfs) : SlotUnused r ↔ 0 < freeSlots r.inodes := by
  rw [freeSlots, Finset.card_pos]
  constructor
  · rintro ⟨i, hi, hu⟩
    exact ⟨i, Finset.mem_filter.mpr ⟨Finset.mem_range.mpr hi, hu⟩⟩
  · rintro ⟨i, hi⟩
    obtain ⟨hlt, hu⟩ := Finset.mem_filter.mp hi
    exact ⟨i, Finset.mem_range.mp hlt, hu⟩

end Ramfs

namespace Vfs

def vfsType (v : Vfs) (cs : List CString) : Option InodeType :=
  (v.vfsResolve (slash :: join slash cs)).1.map fun i => (v.nodes i).type

def ramfsType (r : Ramfs) (cs : List CString) : Option InodeType :=
  (r.ramfsFindInode (join slash cs)).1.map fun i => (r.inodes i).type

def present (v : Vfs) (p : Path) : ℕ :=
  ((Finset.range (p.components.length - 1)).filter fun k =>
    vfsType v (p.components.take (k + 1)) ≠ none).card

def missing (v : Vfs) (p : Path) : ℕ :=
  ((Finset.range p.components.length).filter fun k =>
    ramfsType v.ramfs (p.components.take (k + 1)) = none).card

structure Creatable (v : Vfs) (p : Path) : Prop where
  above : ∀ k < p.components.length, vfsType v (p.components.take k) ≠ some .file ∧
    ramfsType v.ramfs (p.components.take k) ≠ some .file
  absent : vfsType v p.components = none ∧ ramfsType v.ramfs p.components = none

structure Plenty (v : Vfs) (p : Path) : Prop where
  slots : missing v p ≤ Ramfs.freeSlots v.ramfs.inodes
  memory : ∀ k < p.components.length - present v p,
    v.ramfs.heap.outcome (v.ramfs.heap.calls + k) ≠ none
  descriptor : ∃ fd < vfsMaxOpen, (v.files fd).used = false

/-- The call returns a descriptor, after which all above the path are directories and the path is a
file, in both trees, with the inode of the path. -/
def Creates (v : Vfs) (p : Path) : Prop :=
  ∃ fd w node idx, v.vfsCreate (slash :: p.str) = some (some fd, w) ∧
    (∀ k < p.components.length, vfsType w (p.components.take k) = some .dir ∧
      ramfsType w.ramfs (p.components.take k) = some .dir) ∧
    (w.vfsResolve (slash :: p.str)).1 = some node ∧ (w.nodes node).type = .file ∧
    (w.ramfs.ramfsFindInode p.str).1 = some idx ∧ (w.ramfs.inodes idx).type = .file ∧
    (w.nodes node).fsFd = idx ∧ (w.files fd).node = some node

/-- The path has three components, or two more than the VFS has directories for, and the last of these
directories exists. -/
def Served (v : Vfs) (p : Path) : Prop :=
  (p.components.length ≤ 3 ∨ p.components.length ≤ present v p + 2) ∧
    ramfsType v.ramfs (p.components.take (present v p)) ≠ none

section Lookup

variable {v : Vfs} {root fs : ℕ} {cs : List CString} (hw : ∀ c ∈ cs, IsWord isSlash c)

include hw

lemma relOf_join : relOf (slash :: join slash cs) = join slash cs := by
  have hne : (join slash cs).head? ≠ some slash := by
    cases cs with
    | nil => simp
    | cons c cs =>
      obtain ⟨hc, hall⟩ := hw c (by simp)
      obtain ⟨x, xs, rfl⟩ := List.exists_cons_of_ne_nil hc
      have hx : x ≠ slash := by
        rintro rfl
        have := hall slash (by simp)
        simp [isSlash] at this
      cases cs with
      | nil => simpa using hx
      | cons d ds =>
        rw [join_cons slash _ (by simp)]
        simpa using hx
  rw [relOf, List.drop_one, List.tail_cons, if_neg hne]

lemma Ready.vfsType_eq (h : Ready v root fs) (hlen : (join slash cs).length ≤ 255) :
    vfsType v cs = (walk (links v) root cs).map fun i => (v.nodes i).type := by
  rw [vfsType, h.mounted.resolve_eq rfl, relOf_join hw, Ramfs.components_join hw hlen]

lemma Ready.ramfsType_eq (h : Ready v root fs) (hlen : (join slash cs).length ≤ 255) :
    ramfsType v.ramfs cs =
      (walk (Ramfs.links v.ramfs.inodes) 0 cs).map fun i => (v.ramfs.inodes i).type := by
  rw [ramfsType, Ramfs.findInode_eq h.sound, Ramfs.components_join hw hlen]

end Lookup

structure MadeDir (v w : Vfs) (root : ℕ) (q : Path) (child : ℕ) : Prop where
  walk_eq : ∀ ns, walk (links w) root ns =
    if ns = q.components then some child else walk (links v) root ns
  new : ∀ ns, walk (links v) root ns ≠ some child
  dir : (w.nodes child).type = .dir
  leaf : links w child = []
  types : ∀ i, i ≠ child → (w.nodes i).type = (v.nodes i).type
  inodes : w.ramfs.inodes = (v.ramfs.ramfsMkdir q.str).2.inodes
  outcome : w.ramfs.heap.outcome = v.ramfs.heap.outcome
  calls : w.ramfs.heap.calls = v.ramfs.heap.calls + 1
  files : w.files = v.files

lemma Ready.afterDir {v w : Vfs} {root fs node : ℕ} (h : Ready v root fs) {cs : List CString} {t : CString}
    {child : Option ℕ} (hw : walk (links v) root cs = some node) {path : CBuffer 256}
    (hdir : createDir v (rootMount root fs) node path t = (child, w)) : Ready w root fs := by
  have hready := createDir_ready h (rootMount root fs) (h.rooted.walk_lt hw) path t
  rwa [hdir] at hready

lemma Ready.made {v w : Vfs} {root fs : ℕ} (h : Ready v root fs) {q : Path} {cs : List CString}
    {t : CString} (hq : q.components = cs ++ [t]) {node child : ℕ}
    (hw : walk (links v) root cs = some node) (habsent : target (links v node) t = none)
    {path : CBuffer 256} (hpath : path.val = join slash cs)
    (hdir : createDir v (rootMount root fs) node path t = (some child, w)) :
    MadeDir v w root q child := by
  have hc := h.rooted.walk_lt hw
  have hword : ∀ c ∈ cs, IsWord isSlash c := fun c hc => q.word (by rw [hq]; simp [hc])
  have hstr : (appendPath path t).val = q.str := by
    rw [Path.str, hq]
    exact appendPath_join hpath hword (by rw [← hq]; exact q.length_le)
  have hheap := (Ramfs.mkdir_cases h.sound q.str).1
  have ht : t.take 31 = t := List.take_of_length_le (q.component t (by rw [hq]; simp)).2
  rcases createDir_cases h.sound (rootMount root fs) hc path t with ⟨_, he⟩ | ⟨_, fsFd, w', he, hnew⟩
  · rw [hdir] at he
    cases he
  · rw [hdir] at he
    cases he
    rw [hstr] at hnew
    have hready := h.mkdir q.str
    have hwalk := hnew.walk_eq hready.rooted hw rfl (by simp only [strncpy, ht]; exact habsent)
    have hself := hnew.self
    have hkeeps : ∀ i, i ≠ v.ramfs.heap.calls → ∃ ks, w.nodes i = { v.nodes i with children := ks } :=
      fun i hi => hnew.keeps (by rw [hheap]; exact hi)
    simp only [hheap, strncpy, ht] at hwalk hself
    refine ⟨fun ns => ?_, fun ns hns => absurd (h.rooted.walk_lt hns) (lt_irrefl _), by rw [hself],
      by rw [links, hself]; rfl, fun i hi => ?_, hnew.inodes, ?_, ?_, hnew.files⟩
    · rw [hwalk, hq]
      rfl
    · obtain ⟨ks, hks⟩ := hkeeps i hi
      rw [hks]
    · rw [hnew.outcome, hheap]
    · rw [hnew.calls, hheap]

def Dirs (v : Vfs) (root : ℕ) (cs : List CString) : Prop :=
  ∀ qs, qs <+: cs → (∃ i, walk (links v) root qs = some i ∧ (v.nodes i).type = .dir) ∧
    ∃ j, walk (Ramfs.links v.ramfs.inodes) 0 qs = some j ∧ (v.ramfs.inodes j).type = .dir

lemma walk_of_take {ι : Type*} {g : ι → List (CString × ι)} {i j : ι} {as bs : List CString}
    (h : walk g i (as ++ bs) = some j) : ∃ k, walk g i as = some k := by
  rw [walk_append] at h
  obtain ⟨k, hk, _⟩ := Option.bind_eq_some_iff.mp h
  exact ⟨k, hk⟩

section Mkdir

variable {r : Ramfs} {q : Path}

lemma mkdir_view (h : Ramfs.Sound r.inodes)
    (hfile : ∀ i, Ramfs.view r q = some (i, .file) → False) (hparent : Ramfs.ParentIsDir r q)
    (hslot : Ramfs.view r q = none → Ramfs.SlotUnused r) :
    (∃ i, Ramfs.view (r.ramfsMkdir q.str).2 q = some (i, .dir)) ∧
      Ramfs.freeSlots (r.ramfsMkdir q.str).2.inodes + (if Ramfs.view r q = none then 1 else 0) =
        Ramfs.freeSlots r.inodes := by
  obtain ⟨hnew, hold⟩ := h.mkdir q
  rcases (Ramfs.mkdir_cases h q.str).2 with
    ⟨hres, hs, hno, hnex⟩ | ⟨i, e, hex, hres, hs⟩ | ⟨i, idx, he, hres, hs⟩
  · by_cases hv : Ramfs.view r q = none
    · have hok := (hnew hv).iff.mpr ⟨hparent, hv, hslot hv⟩
      rw [hres] at hok
      cases hok
    · obtain ⟨i, e, hex⟩ := (Ramfs.exists_iff h q).mpr hv
      exact absurd hex (hnex i e)
  · have hv := (Ramfs.exists_iff h q).mp ⟨i, e, hex⟩
    rw [if_neg hv, hs, (hold hv).2]
    obtain ⟨⟨j, type⟩, hj⟩ := Option.ne_none_iff_exists'.mp hv
    cases type with
    | file => exact absurd hj (hfile j)
    | dir => exact ⟨⟨j, hj⟩, rfl⟩
  · have hv := ((Ramfs.enters_iff h q).mp ⟨i, idx, he⟩).2.1
    obtain ⟨j, hj⟩ := (hnew hv).added hres
    rw [if_pos hv, hs]
    exact ⟨⟨j, hj⟩, Ramfs.freeSlots_added .dir _ he.dir he.free⟩

lemma mkdir_view_of_ne (h : Ramfs.Sound r.inodes) {p : Path} (hne : p.components ≠ q.components) :
    Ramfs.view (r.ramfsMkdir q.str).2 p = Ramfs.view r p := by
  obtain ⟨hnew, hold⟩ := h.mkdir q
  by_cases hv : Ramfs.view r q = none
  · exact (hnew hv).frame p fun hp => hne hp.2
  · exact (hold hv).2 p

lemma mkdir_parent (h : Ramfs.Sound r.inodes) (hv : Ramfs.view (r.ramfsMkdir q.str).2 q ≠ none) :
    walk (Ramfs.links r.inodes) 0 q.parent ≠ none := by
  obtain ⟨hnew, _⟩ := h.mkdir q
  by_cases hq : Ramfs.view r q = none
  · by_cases hok : (r.ramfsMkdir q.str).1 = true
    · obtain ⟨⟨i, hi, _⟩, _⟩ := (hnew hq).iff.mp hok
      rw [Ramfs.find_parent h] at hi
      rw [hi]
      simp
    · rw [(hnew hq).frame q fun hp => hok hp.1] at hv
      exact absurd hq hv
  · rw [Ramfs.view_eq h, ← q.parent_append_name] at hq
    intro hnone
    rw [walk_append, hnone] at hq
    exact hq rfl

end Mkdir

lemma MadeDir.view_of_ne {v w : Vfs} {root child : ℕ} {q p : Path} (hm : MadeDir v w root q child)
    (hs : Ramfs.Sound v.ramfs.inodes) (hsw : Ramfs.Sound w.ramfs.inodes)
    (hne : p.components ≠ q.components) : Ramfs.view w.ramfs p = Ramfs.view v.ramfs p := by
  rw [← mkdir_view_of_ne hs hne]
  exact Ramfs.view_congr (hm.inodes ▸ hsw) hm.inodes p

lemma Dirs.kept {v w : Vfs} {root : ℕ} {q : Path} {cs : List CString} {t : CString} (hd : Dirs v root cs)
    (hq : q.components = cs ++ [t]) (hs : Ramfs.Sound v.ramfs.inodes) (hsw : Ramfs.Sound w.ramfs.inodes)
    (hwalk : ∀ qs, qs ≠ q.components → walk (links w) root qs = walk (links v) root qs)
    (htypes : ∀ qs k, walk (links v) root qs = some k → (w.nodes k).type = (v.nodes k).type)
    (hview : ∀ p : Path, p.components ≠ q.components → Ramfs.view w.ramfs p = Ramfs.view v.ramfs p) :
    Dirs w root cs := by
  intro qs hqs
  obtain ⟨⟨k, hk, hkdir⟩, j, hj, hjdir⟩ := hd qs hqs
  have hne : qs ≠ q.components := by
    rintro rfl
    have hle := hqs.length_le
    rw [hq, List.length_append, List.length_singleton] at hle
    omega
  refine ⟨⟨k, (hwalk qs hne).trans hk, (htypes qs k hk).trans hkdir⟩, ?_⟩
  by_cases hnil : qs = []
  · subst hnil
    exact ⟨0, rfl, hsw.root.2.2⟩
  · obtain ⟨ds, hds⟩ := hqs
    obtain ⟨p, hp⟩ := q.exists_of_append
      (show q.components = qs ++ (ds ++ [t]) by rw [hq, ← hds]; simp) hnil
    have hsame := hview p (by rw [hp]; exact hne)
    rw [Ramfs.view_eq hs, hp, hj, Option.map_some, hjdir] at hsame
    rw [← hp]
    exact ⟨j, Ramfs.walk_eq_of_view hsw hsame⟩

lemma MadeDir.dirs {v w : Vfs} {root child : ℕ} {q : Path} (hm : MadeDir v w root q child)
    (hs : Ramfs.Sound v.ramfs.inodes) (hsw : Ramfs.Sound w.ramfs.inodes) {cs : List CString}
    {t : CString} (hq : q.components = cs ++ [t]) (hd : Dirs v root cs)
    (hfile : ∀ i, Ramfs.view v.ramfs q = some (i, .file) → False)
    (hslot : Ramfs.view v.ramfs q = none → Ramfs.SlotUnused v.ramfs) :
    Dirs w root (cs ++ [t]) ∧
      Ramfs.freeSlots w.ramfs.inodes + (if Ramfs.view v.ramfs q = none then 1 else 0) =
        Ramfs.freeSlots v.ramfs.inodes := by
  have hparent : Ramfs.ParentIsDir v.ramfs q := by
    obtain ⟨_, j, hj, hdir⟩ := hd cs (List.prefix_refl cs)
    have hqp : q.parent = cs := by rw [Path.parent, hq, List.dropLast_concat]
    exact ⟨j, by rw [Ramfs.find_parent hs, hqp, hj], hdir⟩
  obtain ⟨⟨i, hi⟩, hslots⟩ := mkdir_view hs hfile hparent hslot
  have hvq : Ramfs.view w.ramfs q = some (i, .dir) := by
    rw [← hi]
    exact Ramfs.view_congr (hm.inodes ▸ hsw) hm.inodes q
  refine ⟨fun qs hqs => ?_, by rw [hm.inodes]; exact hslots⟩
  rcases List.prefix_concat_iff.mp hqs with rfl | hqs
  · refine ⟨⟨child, ?_, hm.dir⟩, i, ?_⟩
    · rw [hm.walk_eq, if_pos hq.symm]
    · rw [← hq]
      exact Ramfs.walk_eq_of_view hsw hvq
  · have hkept : Dirs w root cs := hd.kept hq hs hsw (fun ks hne => by rw [hm.walk_eq, if_neg hne])
      (fun ks k hk => hm.types k fun hkc => hm.new ks (hkc ▸ hk)) (fun p hne => hm.view_of_ne hs hsw hne)
    exact hkept qs hqs

def Promised (w : Vfs) (root : ℕ) (p : Path) (fd : ℕ) : Prop :=
  Dirs w root p.parent ∧ ∃ node idx, walk (links w) root p.components = some node ∧
    (w.nodes node).type = .file ∧ Ramfs.view w.ramfs p = some (idx, .file) ∧
    (w.nodes node).fsFd = idx ∧ (w.files fd).node = some node

lemma createFile_promised {v : Vfs} {root fs : ℕ} (h : Ready v root fs) {p : Path}
    (hd : Dirs v root p.parent) {current : ℕ} (hw : walk (links v) root p.parent = some current)
    (hv : walk (links v) root p.components = none) (hr : Ramfs.view v.ramfs p = none)
    (hslot : Ramfs.SlotUnused v.ramfs) (hmem : v.ramfs.heap.outcome v.ramfs.heap.calls ≠ none)
    (hfd : ∃ fd < vfsMaxOpen, (v.files fd).used = false) :
    ∃ fd w, createFile v (rootMount root fs) current p.str (some p.name) = (some fd, w) ∧
      Ready w root fs ∧ Promised w root p fd := by
  have hends := createFile_ends h.sound (rootMount root fs) (h.rooted.walk_lt hw) p.str p.name
  have habsent : target (links v current) p.name = none := by
    rw [← p.parent_append_name, walk_concat, hw] at hv
    exact hv
  have hparent : Ramfs.ParentIsDir v.ramfs p := by
    obtain ⟨_, j, hj, hdir⟩ := hd p.parent (List.prefix_refl _)
    exact ⟨j, by rw [Ramfs.find_parent h.sound, hj], hdir⟩
  obtain ⟨hadds, hidx⟩ := h.sound.create p
  have hok := hadds.iff.mpr ⟨hparent, hr, hslot⟩
  have hready : Ready (createFile v (rootMount root fs) current p.str (some p.name)).2 root fs :=
    createFile_ready h (h.rooted.walk_lt hw) rfl
  generalize createFile v (rootMount root fs) current p.str (some p.name) = res at hends hready ⊢
  cases hends with
  | taken ht => exact absurd habsent ht
  | refused _ hno => exact absurd hno hok
  | noMemory _ _ hout => exact absurd hout hmem
  | noDescriptor _ _ _ _ hfull =>
    obtain ⟨fd, hlt, hu⟩ := hfd
    rw [hfull fd hlt] at hu
    cases hu
  | @opened idx fd w _ hmade _ hnew hfree =>
    refine ⟨fd, _, rfl, hready, ?_⟩
    have hheap := (Ramfs.create_cases h.sound p.str).1
    have hwalk := hnew.walk_eq (h.create p.str).rooted hw rfl
      (by simp only [strncpy, p.name_take]; exact habsent)
    have hself := hnew.self
    simp only [hheap, strncpy, p.name_take, p.parent_append_name] at hwalk hself
    have hsw : Ramfs.Sound w.ramfs.inodes := hready.sound
    have hviews : ∀ q, Ramfs.view w.ramfs q = Ramfs.view (v.ramfs.ramfsCreate p.str).2 q :=
      Ramfs.view_congr (hnew.inodes ▸ hsw) hnew.inodes
    have hkeeps : ∀ i, i ≠ v.ramfs.heap.calls → (w.nodes i).type = (v.nodes i).type := by
      intro i hi
      obtain ⟨ks, hks⟩ := hnew.keeps (by rw [hheap]; exact hi)
      rw [hks]
    refine ⟨?_, v.ramfs.heap.calls, idx, (hwalk _).trans (if_pos rfl), congrArg VfsNode.type hself,
      (hviews p).trans (hidx idx hmade), congrArg VfsNode.fsFd hself, ?_⟩
    · apply hd.kept p.parent_append_name.symm h.sound hsw
      · intro qs hne
        exact (hwalk qs).trans (if_neg hne)
      · intro qs k hk
        exact hkeeps k (h.rooted.walk_lt hk).ne
      · intro q hne
        exact (hviews q).trans (hadds.frame q fun hc => hne hc.2)
    · simp [setFile]

section Counts

variable {v : Vfs} {root fs : ℕ} (h : Ready v root fs) (p : Path)

include h

lemma Ready.vfsType_take (k : ℕ) : vfsType v (p.components.take k) =
    (walk (links v) root (p.components.take k)).map fun i => (v.nodes i).type := by
  have hle := length_join_le_append slash (p.components.take k) (p.components.drop k)
  rw [List.take_append_drop] at hle
  exact h.vfsType_eq (fun c hc => p.word (List.mem_of_mem_take hc)) (hle.trans p.length_le)

lemma Ready.ramfsType_take (k : ℕ) : ramfsType v.ramfs (p.components.take k) =
    (walk (Ramfs.links v.ramfs.inodes) 0 (p.components.take k)).map fun i =>
      (v.ramfs.inodes i).type := by
  have hle := length_join_le_append slash (p.components.take k) (p.components.drop k)
  rw [List.take_append_drop] at hle
  exact h.ramfsType_eq (fun c hc => p.word (List.mem_of_mem_take hc)) (hle.trans p.length_le)

lemma Ready.present_eq {cs us : List CString} {t : CString} (hp : p.components = cs ++ t :: us)
    {node : ℕ} (hw : walk (links v) root cs = some node)
    (hend : us = [] ∨ target (links v node) t = none) : present v p = cs.length := by
  rw [present, ← Finset.card_range cs.length]
  congr 1
  ext k
  have hlen := congrArg List.length hp
  rw [List.length_append, List.length_cons] at hlen
  rw [Finset.mem_filter, Finset.mem_range, Finset.mem_range, h.vfsType_take]
  constructor
  · rintro ⟨hk, hne⟩
    by_contra hle
    rcases hend with rfl | htarget
    · rw [List.length_nil] at hlen
      omega
    · have htake : p.components.take (k + 1) = cs ++ t :: us.take (k - cs.length) := by
        rw [hp, List.take_append, List.take_of_length_le (by omega),
          show k + 1 - cs.length = (k - cs.length) + 1 by omega, List.take_succ_cons]
      rw [htake, walk_append, hw, Option.bind_some, walk_cons, htarget] at hne
      exact hne rfl
  · intro hk
    refine ⟨by omega, ?_⟩
    have htake : p.components.take (k + 1) = cs.take (k + 1) := by
      rw [hp, List.take_append_of_le_length (by omega)]
    have hsplit : walk (links v) root (cs.take (k + 1) ++ cs.drop (k + 1)) = some node := by
      rw [List.take_append_drop]
      exact hw
    obtain ⟨j, hj⟩ := walk_of_take hsplit
    rw [htake, hj]
    simp

end Counts

lemma Promised.creates {v w : Vfs} {root fs fd : ℕ} {p : Path} (h : Promised w root p fd)
    (hw : Ready w root fs) (hc : v.vfsCreate (slash :: p.str) = some (some fd, w)) : Creates v p := by
  obtain ⟨hd, node, idx, hnode, htype, hview, hfsFd, hfile⟩ := h
  have hlookup : (w.vfsResolve (slash :: p.str)).1 = some node := by
    rw [hw.mounted.resolve_eq rfl, show relOf (slash :: p.str) = p.str from relOf_join fun _ => p.word,
      p.components_str, hnode]
  obtain ⟨hfind, hidx⟩ := Ramfs.walk_eq_of_view hw.sound hview
  rw [← Ramfs.find_str hw.sound] at hfind
  refine ⟨fd, w, node, idx, hc, fun k hk => ?_, hlookup, htype, hfind, hidx, hfsFd, hfile⟩
  have hparent : p.components.take k <+: p.parent := by
    rw [← p.parent_append_name, List.take_append_of_le_length (by
      have := congrArg List.length p.parent_append_name
      rw [List.length_append, List.length_singleton] at this
      omega)]
    exact List.take_prefix k _
  obtain ⟨⟨i, hi, hidir⟩, j, hj, hjdir⟩ := hd _ hparent
  rw [hw.vfsType_take, hw.ramfsType_take, hi, hj, Option.map_some, Option.map_some, hidir, hjdir]
  exact ⟨rfl, rfl⟩

section Served

variable {v : Vfs} {root fs : ℕ} (h : Ready v root fs) {p : Path} (hp : Creatable v p)

include h hp

lemma Creatable.dirs {cs ds : List CString} (hsplit : p.components = cs ++ ds) (hds : ds ≠ [])
    {node : ℕ} (hw : walk (links v) root cs = some node)
    (hr : walk (Ramfs.links v.ramfs.inodes) 0 cs ≠ none) : Dirs v root cs := by
  rintro qs ⟨rest, rfl⟩
  obtain ⟨i, hi⟩ := walk_of_take hw
  obtain ⟨j, hj⟩ := Option.ne_none_iff_exists'.mp hr
  obtain ⟨k, hk⟩ := walk_of_take hj
  have htake : p.components.take qs.length = qs := by
    rw [hsplit, List.append_assoc, List.take_left]
  have hlt : qs.length < p.components.length := by
    have hlen := congrArg List.length hsplit
    have hpos := List.length_pos_iff.mpr hds
    simp only [List.length_append] at hlen
    omega
  obtain ⟨hvfs, hramfs⟩ := hp.above qs.length hlt
  rw [h.vfsType_take, htake, hi, Option.map_some] at hvfs
  rw [h.ramfsType_take, htake, hk, Option.map_some] at hramfs
  refine ⟨⟨i, hi, ?_⟩, k, hk, ?_⟩
  · cases ht : (v.nodes i).type with
    | file => exact absurd (congrArg some ht) hvfs
    | dir => rfl
  · cases ht : (v.ramfs.inodes k).type with
    | file => exact absurd (congrArg some ht) hramfs
    | dir => rfl

lemma Creatable.absent_walk : walk (links v) root p.components = none ∧ Ramfs.view v.ramfs p = none := by
  obtain ⟨hvfs, hramfs⟩ := hp.absent
  have hk := h.vfsType_take p p.components.length
  have hk' := h.ramfsType_take p p.components.length
  rw [List.take_length] at hk hk'
  rw [hk, Option.map_eq_none_iff] at hvfs
  rw [hk', Option.map_eq_none_iff] at hramfs
  exact ⟨hvfs, by rw [Ramfs.view_eq h.sound, hramfs]; rfl⟩

lemma Creatable.not_file {q : Path} {cs ds : List CString} (hsplit : p.components = cs ++ ds)
    (hds : ds ≠ []) (hq : q.components = cs) (i : ℕ) :
    Ramfs.view v.ramfs q = some (i, .file) → False := by
  intro hview
  obtain ⟨hw, ht⟩ := Ramfs.walk_eq_of_view h.sound hview
  have htake : p.components.take cs.length = cs := by rw [hsplit, List.take_left]
  have hlt : cs.length < p.components.length := by
    have hlen := congrArg List.length hsplit
    have hpos := List.length_pos_iff.mpr hds
    rw [List.length_append] at hlen
    omega
  have hramfs := (hp.above cs.length hlt).2
  rw [h.ramfsType_take, htake, ← hq, hw, Option.map_some, ht] at hramfs
  exact hramfs rfl

end Served

lemma Ready.create_loop {v : Vfs} {root fs : ℕ} (h : Ready v root fs) (p : Path) :
    ∃ out, LoopEnds (rootMount root fs) v p.components out ∧ v.vfsCreate (slash :: p.str) =
      match out with
      | none => none
      | some (none, v) => some (none, v)
      | some (some (current, token), v) =>
        some (createFile v (rootMount root fs) current p.str (some token)) := by
  have hrel : relOf (slash :: p.str) = p.str := relOf_join fun _ => p.word
  have hends := h.create_ends rfl (by rw [hrel, p.components_str]; exact p.ne_nil)
  rwa [hrel, p.components_str] at hends

lemma Ready.ramfsType_view {v : Vfs} {root fs : ℕ} (h : Ready v root fs) {p q : Path}
    {ds : List CString} (hsplit : p.components = q.components ++ ds) {n : ℕ}
    (hn : q.components.length = n) :
    ramfsType v.ramfs (p.components.take n) = (Ramfs.view v.ramfs q).map Prod.snd := by
  rw [h.ramfsType_take, hsplit, ← hn, List.take_left, Ramfs.view_eq h.sound, Option.map_map]
  rfl

lemma view_cursor {v : Vfs} (h : Ramfs.Sound v.ramfs.inodes) (next : Option Cursor) (p : Path) :
    Ramfs.view (v.setCursor next).ramfs p = Ramfs.view v.ramfs p :=
  Ramfs.view_congr (s := (v.setCursor next).ramfs) h rfl p

structure Can (v : Vfs) (root fs : ℕ) (p : Path) (cs : List CString) : Prop where
  ready : Ready v root fs
  dirs : Dirs v root cs
  vabsent : walk (links v) root p.components = none
  rabsent : Ramfs.view v.ramfs p = none
  notFile : ∀ (q : Path) (ds : List CString), p.components = q.components ++ ds → ds ≠ [] →
    ∀ i, Ramfs.view v.ramfs q ≠ some (i, .file)
  slots : missing v p ≤ Ramfs.freeSlots v.ramfs.inodes
  memory : ∀ k < p.components.length - cs.length, v.ramfs.heap.outcome (v.ramfs.heap.calls + k) ≠ none
  descriptor : ∃ fd < vfsMaxOpen, (v.files fd).used = false

section Can

variable {v w : Vfs} {root fs : ℕ} {p : Path} {cs : List CString}

lemma Can.cursor (h : Can v root fs p cs) (next : Option Cursor) :
    Can (v.setCursor next) root fs p cs where
  ready := h.ready.cursor next
  dirs := h.dirs
  vabsent := h.vabsent
  rabsent := (view_cursor h.ready.sound next p).trans h.rabsent
  notFile q ds hq hds i hi := h.notFile q ds hq hds i ((view_cursor h.ready.sound next q).symm.trans hi)
  slots := by
    refine le_trans (le_of_eq ?_) h.slots
    simp only [missing, h.ready.ramfsType_take, (h.ready.cursor next).ramfsType_take]
    rfl
  memory := h.memory
  descriptor := h.descriptor

lemma Ready.can (h : Ready v root fs) (hp : Creatable v p) (hpl : Plenty v p) {t : CString}
    {us : List CString} (hsplit : p.components = cs ++ t :: us) {node : ℕ}
    (hw : walk (links v) root cs = some node) (hend : us = [] ∨ target (links v node) t = none)
    (hr : walk (Ramfs.links v.ramfs.inodes) 0 cs ≠ none) : Can v root fs p cs where
  ready := h
  dirs := hp.dirs h hsplit (by simp) hw hr
  vabsent := (hp.absent_walk h).1
  rabsent := (hp.absent_walk h).2
  notFile q ds hq hds i hi := hp.not_file h hq hds rfl i hi
  slots := hpl.slots
  memory := by
    rw [← h.present_eq p hsplit hw hend]
    exact hpl.memory
  descriptor := hpl.descriptor

lemma mem_missing {q : Path} {ds : List CString} {n : ℕ} (h : Ready v root fs)
    (hqp : p.components = q.components ++ ds) (hlen : q.components.length = n + 1)
    (hnone : Ramfs.view v.ramfs q = none) : n ∈ (Finset.range p.components.length).filter
      fun k => ramfsType v.ramfs (p.components.take (k + 1)) = none := by
  rw [Finset.mem_filter, Finset.mem_range, h.ramfsType_view hqp hlen, hnone, hqp, List.length_append]
  exact ⟨by omega, rfl⟩

lemma missing_made {q : Path} {ds : List CString} {n : ℕ} (h : Ready v root fs) (hw : Ready w root fs)
    (hqp : p.components = q.components ++ ds) (hlen : q.components.length = n + 1)
    (hsome : Ramfs.view w.ramfs q ≠ none)
    (hsame : ∀ q' : Path, q'.components ≠ q.components →
      Ramfs.view w.ramfs q' = Ramfs.view v.ramfs q') :
    missing w p + (if Ramfs.view v.ramfs q = none then 1 else 0) ≤ missing v p := by
  have hsub : ((Finset.range p.components.length).filter fun k =>
      ramfsType w.ramfs (p.components.take (k + 1)) = none) ⊆
        ((Finset.range p.components.length).filter fun k =>
          ramfsType v.ramfs (p.components.take (k + 1)) = none).erase n := by
    intro k hk
    rw [Finset.mem_filter, Finset.mem_range] at hk
    obtain ⟨q', hq'⟩ := p.exists_of_append (List.take_append_drop (k + 1) _).symm
      (List.ne_nil_of_length_pos (by rw [List.length_take]; omega))
    have hsplit : p.components = q'.components ++ p.components.drop (k + 1) := by
      rw [hq', List.take_append_drop]
    have hlen' : q'.components.length = k + 1 := by
      rw [hq', List.length_take]
      omega
    have hkn : k ≠ n := by
      rintro rfl
      rw [hw.ramfsType_view hqp hlen] at hk
      exact hsome (Option.map_eq_none_iff.mp hk.2)
    rw [hw.ramfsType_view hsplit hlen', hsame q' fun he => hkn (by
      have := congrArg List.length he
      omega)] at hk
    rw [Finset.mem_erase, Finset.mem_filter, Finset.mem_range, h.ramfsType_view hsplit hlen']
    exact ⟨hkn, hk⟩
  have hcard := Finset.card_le_card hsub
  by_cases hnone : Ramfs.view v.ramfs q = none
  · have hmem := mem_missing h hqp hlen hnone
    rw [Finset.card_erase_of_mem hmem] at hcard
    have hpos := Finset.card_pos.mpr ⟨_, hmem⟩
    rw [if_pos hnone, missing, missing]
    omega
  · rw [if_neg hnone]
    exact hcard.trans (Finset.card_le_card (Finset.erase_subset _ _))

lemma Can.made (h : Can v root fs p cs) {t u : CString} {us : List CString}
    (hsplit : p.components = cs ++ t :: u :: us) {node child : ℕ} {path : CBuffer 256}
    (hw : walk (links v) root cs = some node) (habsent : target (links v node) t = none)
    (hpath : path.val = join slash cs)
    (hdir : createDir v (rootMount root fs) node path t = (some child, w)) :
    Can w root fs p (cs ++ [t]) ∧ walk (links w) root (cs ++ [t]) = some child ∧
      links w child = [] := by
  have hsplit' : p.components = (cs ++ [t]) ++ u :: us := by rw [hsplit]; simp
  obtain ⟨q, hq⟩ := p.exists_of_append hsplit' (by simp)
  have hqp : p.components = q.components ++ u :: us := by rw [hq, hsplit']
  have hready := h.ready.afterDir hw hdir
  have hmade := h.ready.made hq hw habsent hpath hdir
  have hne : p.components ≠ q.components := fun he => by
    have hlen := congrArg List.length (hqp.symm.trans he)
    simp at hlen
  have hvne : ∀ q' : Path, q'.components ≠ q.components →
      Ramfs.view w.ramfs q' = Ramfs.view v.ramfs q' :=
    fun q' => hmade.view_of_ne h.ready.sound hready.sound
  have hlen := congrArg List.length hsplit'
  simp only [List.length_append, List.length_cons, List.length_nil] at hlen
  have hqlen : q.components.length = cs.length + 1 := by rw [hq]; simp
  obtain ⟨hdirs, hfree⟩ := hmade.dirs h.ready.sound hready.sound hq h.dirs
    (fun i hi => h.notFile q _ hqp (by simp) i hi)
    (fun hnone => (Ramfs.slotUnused_iff v.ramfs).mpr
      ((Finset.card_pos.mpr ⟨_, mem_missing h.ready hqp hqlen hnone⟩).trans_le h.slots))
  have hsome : Ramfs.view w.ramfs q ≠ none := by
    obtain ⟨_, j, hj, _⟩ := hdirs (cs ++ [t]) (List.prefix_refl _)
    rw [Ramfs.view_eq hready.sound, hq, hj]
    simp
  have hcount := missing_made h.ready hready hqp hqlen hsome hvne
  refine ⟨⟨hready, hdirs, ?_, (hvne p hne).trans h.rabsent, fun q' ds hq' hds i hi => ?_, ?_, ?_, ?_⟩,
    by rw [hmade.walk_eq, if_pos hq.symm], hmade.leaf⟩
  · rw [hmade.walk_eq, if_neg hne]
    exact h.vabsent
  · by_cases hqq : q'.components = q.components
    · obtain ⟨_, j, hj, hjdir⟩ := hdirs (cs ++ [t]) (List.prefix_refl _)
      rw [Ramfs.view_eq hready.sound, hqq, hq, hj, Option.map_some, hjdir] at hi
      cases hi
    · rw [hvne q' hqq] at hi
      exact h.notFile q' ds hq' hds i hi
  · have := h.slots
    omega
  · intro k hk
    rw [hmade.outcome, hmade.calls, Nat.add_assoc, Nat.add_comm 1 k]
    apply h.memory (k + 1)
    rw [List.length_append, List.length_singleton] at hk
    omega
  · rw [hmade.files]
    exact h.descriptor

lemma Can.file (h : Can v root fs p cs) {t : CString} (hsplit : p.components = cs ++ [t])
    {current : ℕ} (hw : walk (links v) root cs = some current) :
    ∃ fd w, createFile v (rootMount root fs) current p.str (some t) = (some fd, w) ∧
      Ready w root fs ∧ Promised w root p fd := by
  obtain ⟨hparent, hname⟩ := p.parent_name hsplit
  have hpos : 0 < missing v p := by
    refine Finset.card_pos.mpr ⟨cs.length, Finset.mem_filter.mpr ⟨?_, ?_⟩⟩
    · rw [Finset.mem_range, hsplit]
      simp
    · rw [h.ready.ramfsType_view (List.append_nil p.components).symm (by rw [hsplit]; simp), h.rabsent]
      rfl
  have hmem := h.memory 0 (by rw [hsplit]; simp)
  rw [← hname]
  rw [← hparent] at h hw
  exact createFile_promised h.ready h.dirs hw h.vabsent h.rabsent
    ((Ramfs.slotUnused_iff v.ramfs).mpr (hpos.trans_le h.slots)) hmem h.descriptor

end Can

lemma Can.made_some {v w : Vfs} {root fs : ℕ} {p : Path} {cs : List CString} (h : Can v root fs p cs)
    (hlt : cs.length < p.components.length) {node : ℕ} (hw : walk (links v) root cs = some node)
    {path : CBuffer 256} {t : CString} :
    createDir v (rootMount root fs) node path t ≠ (none, w) := by
  intro hdir
  rcases createDir_cases h.ready.sound (rootMount root fs) (h.ready.rooted.walk_lt hw) path t with
    ⟨hout, _⟩ | ⟨_, fsFd, w', he, _⟩
  · exact h.memory 0 (by omega) hout
  · rw [hdir] at he
    cases he

lemma Served.creates {v : Vfs} {root fs : ℕ} {p : Path} (hs : Served v p) (h : Ready v root fs)
    (hp : Creatable v p) (hpl : Plenty v p) : Creates v p := by
  obtain ⟨out, hends, hcreate⟩ := h.create_loop p
  obtain ⟨hshort, hdeep⟩ := hs
  have hfound : ∀ {cs us : List CString} {t : CString} {node : ℕ},
      p.components = cs ++ t :: us → walk (links v) root cs = some node →
      us = [] ∨ target (links v node) t = none →
      present v p = cs.length ∧ walk (Ramfs.links v.ramfs.inodes) 0 cs ≠ none := by
    intro cs us t node hts hw hend
    have hpresent := h.present_eq p hts hw hend
    rw [hpresent, h.ramfsType_take, hts, List.take_left] at hdeep
    exact ⟨hpresent, fun hnone => hdeep (by rw [hnone]; rfl)⟩
  cases hends with
  | @found cs t node next hts hw =>
    obtain ⟨_, hr⟩ := hfound hts hw (.inl rfl)
    have hcan := (h.can hp hpl hts hw (.inl rfl) hr).cursor next
    obtain ⟨fd, w, hfile, hready, hprom⟩ := hcan.file hts hw
    exact hprom.creates hready (hcreate.trans (congrArg some hfile))
  | @failed cs us t u node next path w hts hw habsent hpath hdir =>
    obtain ⟨_, hr⟩ := hfound hts hw (.inr habsent)
    have hcan := (h.can hp hpl hts hw (.inr habsent) hr).cursor next
    exact absurd hdir (hcan.made_some (by rw [hts]; simp) hw)
  | @made cs us t u node child next path w next' hts hw habsent hpath hdir hend =>
    obtain ⟨hpresent, hr⟩ := hfound hts hw (.inr habsent)
    have hcan := (h.can hp hpl hts hw (.inr habsent) hr).cursor next
    obtain ⟨hcan', hchild, _⟩ := hcan.made hts hw habsent hpath hdir
    have hlen := congrArg List.length hts
    simp only [List.length_append, List.length_cons] at hlen
    have hus : us = [] := by
      rcases hend with hcs | hus
      · have hpos := List.length_pos_iff.mpr hcs
        exact List.eq_nil_of_length_eq_zero (by omega)
      · exact hus
    subst hus
    obtain ⟨fd, x, hfile, hready, hprom⟩ :=
      (hcan'.cursor next').file (t := u) (by rw [hts]; simp) hchild
    exact hprom.creates hready (hcreate.trans (congrArg some hfile))
  | lost hts hw habsent hlost => exact absurd hlost (hfound hts hw (.inr habsent)).2
  | @failedTwice us t u x child next next' path path' w w' hts habsent hpath hdir hpath' hdir' =>
    obtain ⟨_, hr⟩ := hfound (show p.components = [] ++ _ from hts) rfl (.inr habsent)
    have hcan := (Ready.can h hp hpl hts rfl (.inr habsent) hr).cursor next
    obtain ⟨hcan', hchild, _⟩ := hcan.made hts rfl habsent hpath hdir
    exact absurd hdir' ((hcan'.cursor next').made_some (by rw [hts]; simp) hchild)
  | @madeTwice us t u x child child' next next' path path' w w' next'' hts habsent hpath hdir hpath' hdir' =>
    obtain ⟨hpresent, hr⟩ := hfound (show p.components = [] ++ _ from hts) rfl (.inr habsent)
    have hcan := (Ready.can h hp hpl hts rfl (.inr habsent) hr).cursor next
    obtain ⟨hcan', hchild, hleaf⟩ := hcan.made hts rfl habsent hpath hdir
    have hts' : p.components = ([] ++ [t]) ++ u :: x :: us := hts
    obtain ⟨hcan'', hchild', _⟩ := (hcan'.cursor next').made hts' hchild
      (by rw [show links (w.setCursor next') child = [] from hleaf]; rfl)
      (by rw [hpath']; simp) hdir'
    have hlen := congrArg List.length hts
    simp only [List.length_cons] at hlen
    rw [List.length_nil] at hpresent
    have hus : us = [] := List.eq_nil_of_length_eq_zero (by omega)
    subst hus
    obtain ⟨fd, y, hfile, hready, hprom⟩ := (hcan''.cursor next'').file (t := x) hts hchild'
    exact hprom.creates hready (hcreate.trans (congrArg some hfile))

lemma opened_of_some {v w : Vfs} {root fs current fd : ℕ} {rel t : CString} {cs : List CString}
    (h : Ready v root fs) (hw : walk (links v) root cs = some current) (ht : t.take 31 = t)
    (he : createFile v (rootMount root fs) current rel (some t) = (some fd, w)) :
    (v.ramfs.ramfsCreate rel).1 ≠ none ∧
      ∃ node, walk (links w) root (cs ++ [t]) = some node ∧ (w.nodes node).type = .file := by
  have hends := createFile_ends h.sound (rootMount root fs) (h.rooted.walk_lt hw) rel t
  rw [he] at hends
  cases hends with
  | opened habsent hres _ hnew _ =>
    have hwalk := hnew.walk_eq (h.create rel).rooted hw rfl
      (by simp only [strncpy, ht]; exact habsent)
    have hself := hnew.self
    simp only [strncpy, ht] at hwalk hself
    exact ⟨by rw [hres]; simp, _, (hwalk _).trans (if_pos rfl), congrArg VfsNode.type hself⟩

section ServedBy

variable {v w : Vfs} {root fs fd node : ℕ} {p : Path} {cs us : List CString} {t : CString}

lemma Ready.served_of (h : Ready v root fs) (hts : p.components = cs ++ t :: us)
    (hw : walk (links v) root cs = some node) (hend : us = [] ∨ target (links v node) t = none)
    (hlen : p.components.length ≤ 3 ∨ p.components.length ≤ cs.length + 2)
    (hr : walk (Ramfs.links v.ramfs.inodes) 0 cs ≠ none) : Served v p := by
  have hpresent := h.present_eq p hts hw hend
  refine ⟨by rw [hpresent]; exact hlen, ?_⟩
  rw [hpresent, h.ramfsType_take, hts, List.take_left]
  exact fun hnone => hr (Option.map_eq_none_iff.mp hnone)

lemma Ready.nothing_below_file (h : Ready w root fs)
    (hdirs : ∀ k < p.components.length, vfsType w (p.components.take k) = some .dir ∧
      ramfsType w.ramfs (p.components.take k) = some .dir) (hsplit : p.components = cs ++ us)
    (hfile : ∃ node, walk (links w) root cs = some node ∧ (w.nodes node).type = .file) : us = [] := by
  obtain ⟨node, hnode, htype⟩ := hfile
  by_contra hus
  have hpos := List.length_pos_iff.mpr hus
  have hlen := congrArg List.length hsplit
  rw [List.length_append] at hlen
  have hdir := (hdirs cs.length (by omega)).1
  rw [h.vfsType_take, hsplit, List.take_left, hnode, Option.map_some, htype] at hdir
  cases hdir

lemma Ready.parent_of_opened (h : Ready v root fs) (hts : p.components = cs ++ [t])
    (hw : walk (links v) root cs = some node)
    (hfile : createFile v (rootMount root fs) node p.str (some t) = (some fd, w)) :
    ∃ i, walk (Ramfs.links v.ramfs.inodes) 0 cs = some i := by
  have htake : t.take 31 = t := List.take_of_length_le (p.component t (by rw [hts]; simp)).2
  have hres := (opened_of_some h hw htake hfile).1
  obtain ⟨⟨i, hi, _⟩, _⟩ := (h.sound.create p).1.iff.mp hres
  rw [Ramfs.find_parent h.sound, (p.parent_name hts).1] at hi
  exact ⟨i, hi⟩

lemma Ready.parent_of_made {child i : ℕ} {q : Path} {path : CBuffer 256} (h : Ready v root fs)
    (hq : q.components = cs ++ [t]) (hw : walk (links v) root cs = some node)
    (habsent : target (links v node) t = none) (hpath : path.val = join slash cs)
    (hdir : createDir v (rootMount root fs) node path t = (some child, w))
    (hi : walk (Ramfs.links w.ramfs.inodes) 0 (cs ++ [t]) = some i) :
    walk (Ramfs.links v.ramfs.inodes) 0 cs ≠ none := by
  have hmade := h.made hq hw habsent hpath hdir
  have hwr := h.afterDir hw hdir
  have hview : Ramfs.view (v.ramfs.ramfsMkdir q.str).2 q ≠ none := by
    rw [← Ramfs.view_congr (r := (v.ramfs.ramfsMkdir q.str).2) (s := w.ramfs)
      (hmade.inodes ▸ hwr.sound) hmade.inodes q, Ramfs.view_eq hwr.sound, hq, hi]
    simp
  have hparent := mkdir_parent h.sound hview
  rwa [(q.parent_name hq).1] at hparent

end ServedBy

lemma Creates.served {v : Vfs} {root fs : ℕ} {p : Path} (hc : Creates v p) (h : Ready v root fs) :
    Served v p := by
  obtain ⟨fd, w, node, idx, hfd, hdirs, _⟩ := hc
  obtain ⟨out, hends, hcreate⟩ := h.create_loop p
  rw [hfd] at hcreate
  have hwr := h.vfsCreate hfd
  have htake : ∀ c ∈ p.components, c.take 31 = c :=
    fun c hc => List.take_of_length_le (p.component c hc).2
  cases hends with
  | @found cs t current next hts hw =>
    obtain ⟨i, hi⟩ := (h.cursor next).parent_of_opened hts hw (Option.some.inj hcreate.symm)
    have hlen := congrArg List.length hts
    rw [List.length_append, List.length_singleton] at hlen
    have hr : walk (Ramfs.links v.ramfs.inodes) 0 cs = some i := hi
    exact h.served_of hts hw (.inl rfl) (.inr (by omega)) (by rw [hr]; exact Option.some_ne_none _)
  | failed => cases hcreate
  | @made cs us t u current child next path x next' hts hw habsent hpath hdir hend =>
    have hx := (h.cursor next).afterDir hw hdir
    have hsplit : p.components = (cs ++ [t]) ++ u :: us := by rw [hts]; simp
    obtain ⟨q, hq⟩ := p.exists_of_append hsplit (by simp)
    have hmade := (h.cursor next).made hq hw habsent hpath hdir
    have hchild : walk (links x) root (cs ++ [t]) = some child := by
      rw [hmade.walk_eq, if_pos hq.symm]
    obtain ⟨_, hfile⟩ := opened_of_some (hx.cursor next') hchild (htake u (by rw [hts]; simp))
      (Option.some.inj hcreate.symm)
    cases hwr.nothing_below_file hdirs (show p.components = (cs ++ [t] ++ [u]) ++ us by rw [hts]; simp) hfile
    obtain ⟨i, hi⟩ := (hx.cursor next').parent_of_opened hsplit hchild (Option.some.inj hcreate.symm)
    exact h.served_of hts hw (.inr habsent) (.inr (by rw [hts]; simp))
      ((h.cursor next).parent_of_made hq hw habsent hpath hdir hi)
  | lost => cases hcreate
  | failedTwice => cases hcreate
  | @madeTwice us t u x child child' next next' path path' y z next'' hts habsent hpath hdir hpath' hdir' =>
    have hy : Ready y root fs := (h.cursor next).afterDir (walk_nil (links v) root) hdir
    have hsplit : p.components = ([] ++ [t]) ++ u :: x :: us := hts
    have hsplit' : p.components = ([t] ++ [u]) ++ x :: us := hts
    obtain ⟨q, hq⟩ := p.exists_of_append hsplit (by simp)
    obtain ⟨q', hq'⟩ := p.exists_of_append hsplit' (by simp)
    have hmade := (h.cursor next).made hq rfl habsent hpath hdir
    have hchild : walk (links y) root ([] ++ [t]) = some child := by
      rw [hmade.walk_eq, if_pos hq.symm]
    have hz := (hy.cursor next').afterDir hchild hdir'
    have hmade' := (hy.cursor next').made hq' hchild
      (by rw [show links (y.setCursor next') child = [] from hmade.leaf]; rfl)
      (by rw [hpath']; simp) hdir'
    have hchild' : walk (links z) root ([t] ++ [u]) = some child' := by
      rw [hmade'.walk_eq, if_pos hq'.symm]
    obtain ⟨_, hfile⟩ := opened_of_some (hz.cursor next'') hchild' (htake x (by rw [hts]; simp))
      (Option.some.inj hcreate.symm)
    cases hwr.nothing_below_file hdirs (show p.components = ([t] ++ [u] ++ [x]) ++ us from hts) hfile
    exact h.served_of (show p.components = [] ++ t :: [u, x] from hts) rfl (.inr habsent)
      (.inl (by rw [hts]; simp)) (by simp)

/-- In every reachable state `vfs_create` creates a path that can be created if and only if it has at
most three components, or two more than directories are there for, and the last of these exists. -/
theorem creates_iff {v₀ v : Vfs} (hb : Booted v₀) {ls : List (Op × Result)}
    (hrun : Transition.Run Step v₀ ls v) {p : Path} (hp : Creatable v p) (hpl : Plenty v p) :
    Creates v p ↔ Served v p :=
  have h := ready_of_run hb hrun
  ⟨fun hc => hc.served h, fun hs => hs.creates h hp hpl⟩

lemma bootedZero_memory (k : ℕ) : bootedZero.ramfs.heap.outcome k ≠ none := by
  show some (fun _ => (0 : UInt8)) ≠ none
  simp

def threeDeep : Path := ⟨[cstring "a", cstring "b", cstring "c"], by decide, by decide, by decide⟩

theorem creates_iff_three : Creates bootedZero threeDeep ↔ Served bootedZero threeDeep :=
  creates_iff bootedZero_booted (.nil _) ⟨by decide, by decide⟩
    ⟨by decide, fun _ _ => bootedZero_memory _, by decide⟩

def fourDeep : Path :=
  ⟨[cstring "a", cstring "b", cstring "c", cstring "d"], by decide, by decide, by decide⟩

theorem four_deep_fails :
    Booted bootedZero ∧ Creatable bootedZero fourDeep ∧ Plenty bootedZero fourDeep ∧
      (bootedZero.vfsCreate (cstring "/a/b/c/d")).map Prod.fst = some none ∧
      ¬ Creates bootedZero fourDeep := by
  have hfails : (bootedZero.vfsCreate (slash :: fourDeep.str)).map Prod.fst = some none := by decide
  refine ⟨bootedZero_booted, ⟨by decide, by decide⟩,
    ⟨by decide, fun _ _ => bootedZero_memory _, by decide⟩, hfails, ?_⟩
  rintro ⟨fd, w, _, _, hc, _⟩
  rw [hc] at hfails
  cases hfails

end Vfs

end Veni.Filesystem
