import Veni.Filesystem.RamfsPaths
import Veni.Filesystem.VfsOperations

/-! What the two trees hold at a list of names, and how the operations change it. -/

namespace Veni.Filesystem

open Veni.Libc Veni.Lib.Tokens Veni.Lib.NameGraph

inductive Entry
  | dir
  | file (inode : ℕ)

def InodeType.entry (type : InodeType) (inode : ℕ) : Entry :=
  match type with
  | .dir => .dir
  | .file => .file inode

def gain (f : List CString → Option Entry) (place : List CString) (e : Option Entry) (ns : List CString) :
    Option Entry :=
  (f ns).or (if ns = place then e else none)

lemma gain_none (f : List CString → Option Entry) (place : List CString) : gain f place none = f := by
  funext ns
  simp [gain]

section Gain

variable {f : List CString → Option Entry} {place ns : List CString} {e : Option Entry}

lemma gain_of_ne (h : ns ≠ place) : gain f place e ns = f ns := by
  rw [gain, if_neg h, Option.or_none]

lemma gain_eq_none (h : gain f place e ns = none) : f ns = none := (Option.or_eq_none_iff.mp h).1

lemma countP_gain {asked : List (List CString)} (h : place ∉ asked) :
    asked.countP (fun ks => (gain f place e ks).isNone) = asked.countP fun ks => (f ks).isNone := by
  refine List.countP_congr fun ks hks => ?_
  have hne : ks ≠ place := fun heq => h (heq ▸ hks)
  rw [gain_of_ne hne]

end Gain

namespace Ramfs

def entry (r : Ramfs) (ns : List CString) : Option Entry :=
  (walk (links r.inodes) 0 ns).map fun i => (r.inodes i).type.entry i

def entered (path : CString) : List CString :=
  components (splitPath path).1 ++ [(splitPath path).2.take 31]

def place (path : CString) : List CString :=
  components (splitPath path).1 ++ [(splitPath path).2]

def Room (r : Ramfs) (path : CString) : Prop := ∃ p idx, Enters r.inodes path p idx

section Entry

variable {r s : Ramfs}

lemma entry_congr (h : s.inodes = r.inodes) : s.entry = r.entry := by
  funext ns
  rw [entry, entry, h]

lemma SameTree.entry (h : SameTree r.inodes s.inodes) : s.entry = r.entry := by
  funext ns
  simp only [Ramfs.entry, h.links, (h _).1]

lemma entry_names (ns : List CString) (h : r.entry ns ≠ none) : ∀ n ∈ ns, n.length ≤ 31 := by
  cases hw : walk (links r.inodes) 0 ns with
  | none => exact absurd (by rw [entry, hw]; rfl) h
  | some i =>
    refine name_of_walk (fun j n k hk => ?_) hw
    obtain ⟨_, e, _, rfl, _⟩ := mem_links.mp hk
    exact Nat.le_of_lt_succ e.name.2

lemma entry_eq_dir {ns : List CString} :
    r.entry ns = some .dir ↔ ∃ i, walk (links r.inodes) 0 ns = some i ∧ (r.inodes i).type = .dir := by
  rw [entry, Option.map_eq_some_iff]
  refine exists_congr fun i => and_congr_right fun _ => ?_
  cases (r.inodes i).type <;> simp [InodeType.entry]

lemma entry_eq_none {ns : List CString} : r.entry ns = none ↔ walk (links r.inodes) 0 ns = none := by
  rw [entry, Option.map_eq_none_iff]

lemma entry_of_append {ns ms : List CString} (h : r.entry (ns ++ ms) ≠ none) : r.entry ns ≠ none := by
  rw [Ne, entry_eq_none] at h ⊢
  intro hnone
  rw [walk_append, hnone] at h
  exact h rfl

lemma entry_dir_of_append {ns ms : List CString} (h : r.entry (ns ++ ms) = some .dir) :
    r.entry ns = some .dir := by
  rcases eq_or_ne ms [] with rfl | hne
  · rwa [List.append_nil] at h
  · obtain ⟨j, hj, _⟩ := entry_eq_dir.mp h
    rw [walk_append] at hj
    obtain ⟨i, hi, hj⟩ := Option.bind_eq_some_iff.mp hj
    refine entry_eq_dir.mpr ⟨i, hi, ?_⟩
    by_contra hfile
    rw [walk_of_nil (by rw [links, if_neg fun hu => hfile hu.2.2]) hne] at hj
    cases hj

lemma room_iff (h : Sound r.inodes) (path : CString) :
    Room r path ↔ r.entry (components (splitPath path).1) = some .dir ∧
      r.entry (place path) = none ∧ 0 < freeSlots r.inodes := by
  have hview : ∀ p, UsedDir r.inodes p → parentOf r.inodes path = some p →
      (r.entry (place path) = none ↔ findEntry (r.inodes p).entries (splitPath path).2 = none) := by
    intro p hd hp
    rw [place, entry_eq_none, walk_concat, ← parentOf, hp, Option.bind_some, target_links hd,
      Option.map_eq_none_iff]
  constructor
  · rintro ⟨p, idx, he⟩
    refine ⟨entry_eq_dir.mpr ⟨p, he.parent, he.dir.2.2⟩, (hview p he.dir he.parent).mpr he.absent, ?_⟩
    exact Finset.card_pos.mpr ⟨idx, Finset.mem_filter.mpr ⟨Finset.mem_range.mpr he.free.1, he.free.2.1⟩⟩
  · rintro ⟨hdir, hnone, hfree⟩
    obtain ⟨p, hp, hd⟩ := entry_eq_dir.mp hdir
    have hused := h.usedDir hp hd
    obtain ⟨i, hi⟩ := Finset.card_pos.mp hfree
    obtain ⟨hlt, hu⟩ := Finset.mem_filter.mp hi
    rcases allocInode_cases r with ⟨hfull, _⟩ | ⟨idx, hfirst, _⟩
    · rw [hfull i (Finset.mem_range.mp hlt)] at hu
      cases hu
    · exact ⟨p, idx, hp, hused, (hview p hused hp).mp hnone, hfirst⟩

lemma walk_added (h : Sound r.inodes) {path : CString} {p idx : ℕ} (he : Enters r.inodes path p idx)
    {type : InodeType} (hs : s.inodes = added r.inodes type p (splitPath path).2 idx)
    (ns : List CString) : walk (links s.inodes) 0 ns =
      (walk (links r.inodes) 0 ns).or (if ns = entered path then some idx else none) := by
  have hleaf : links r.inodes idx = [] := by
    have hnot : ¬ UsedDir r.inodes idx := fun hu => he.free.ne hu rfl
    rw [links, if_neg hnot]
  rw [hs, links_added type he.dir he.free.2.1 he.free.1,
    h.tree.walk_link_or hleaf (he.free.ne he.dir) he.parent, ← entered]

lemma entry_added (h : Sound r.inodes) {path : CString} {p idx : ℕ} (he : Enters r.inodes path p idx)
    {type : InodeType} (hs : s.inodes = added r.inodes type p (splitPath path).2 idx) :
    s.entry = gain r.entry (entered path) (some (type.entry idx)) := by
  have htype : ∀ ns i, walk (links r.inodes) 0 ns = some i →
      (added r.inodes type p (splitPath path).2 idx i).type = (r.inodes i).type :=
    fun ns i hi => type_added he.dir he.free (h.live_walk hi).2
  funext ns
  rw [entry, gain, walk_added h he hs, hs, entry]
  cases hw : walk (links r.inodes) 0 ns with
  | some i =>
    rw [Option.some_or, Option.map_some, Option.map_some, Option.some_or, htype ns i hw]
  | none =>
    by_cases hns : ns = entered path
    · rw [if_pos hns, if_pos hns, Option.none_or, Option.map_some, Option.map_none, Option.none_or,
        added_self type (he.free.ne he.dir)]
      rfl
    · rw [if_neg hns, if_neg hns]
      rfl

lemma entry_removed (h : Sound r.inodes) {path : CString} {p : ℕ} {e : RamfsDirent}
    (he : Exists r.inodes path p e)
    (hs : s.inodes = removed r.inodes p (splitPath path).2 e.inodeIdx) {ns : List CString}
    (hns : ¬ place path <+: ns) : s.entry ns = r.entry ns := by
  rw [entry, entry, hs, links_removed he.dir (he.ne h),
    h.tree.walk_cut_of_not_prefix he.parent he.target hns]
  simp only [type_removed (he.ne h)]

variable (r) in
lemma create_entry (h : Sound r.inodes) (path : CString) :
    (r.ramfsCreate path).2.entry =
        gain r.entry (entered path) ((r.ramfsCreate path).1.map Entry.file) ∧
      ((r.ramfsCreate path).1 ≠ none ↔ Room r path) := by
  rcases (create_cases h path).2 with ⟨hres, hs, hno⟩ | ⟨p, idx, he, hres, hs⟩
  · rw [hres, entry_congr hs, Option.map_none, gain_none]
    exact ⟨rfl, by simp, fun ⟨p, idx, he⟩ => absurd he (hno p idx)⟩
  · rw [hres, entry_added h he hs]
    exact ⟨rfl, fun _ => ⟨p, idx, he⟩, fun _ => by simp⟩

variable (r) in
lemma mkdir_entry (h : Sound r.inodes) (path : CString) :
    (Room r path ∧ (r.ramfsMkdir path).2.entry = gain r.entry (entered path) (some .dir) ∧
        freeSlots (r.ramfsMkdir path).2.inodes + 1 = freeSlots r.inodes ∧
        ∀ k i, NthFree (r.ramfsMkdir path).2.inodes k i → NthFree r.inodes (k + 1) i) ∨
      ¬ Room r path ∧ (r.ramfsMkdir path).2.entry = r.entry ∧
        (r.ramfsMkdir path).2.inodes = r.inodes := by
  rcases (mkdir_cases h path).2 with ⟨_, hs, hno, _⟩ | ⟨q, e, hex, _, hs⟩ | ⟨p, idx, he, _, hs⟩
  · exact .inr ⟨fun ⟨p, idx, he⟩ => hno p idx he, entry_congr hs, hs⟩
  · exact .inr ⟨fun ⟨p, idx, he⟩ => he.not_exists hex, entry_congr hs, hs⟩
  · refine .inl ⟨⟨p, idx, he⟩, entry_added h he hs, ?_⟩
    rw [hs]
    exact ⟨freeSlots_added .dir _ he.dir he.free, fun k i => .of_added he.dir he.free⟩

end Entry

end Ramfs

namespace Vfs

def entry (v : Vfs) (root : ℕ) (ns : List CString) : Option Entry :=
  (walk (links v) root ns).map fun i => (v.nodes i).type.entry (v.nodes i).fsFd

section Entry

variable {v w : Vfs} {root : ℕ}

lemma entry_congr (h : w.nodes = v.nodes) : w.entry root = v.entry root := by
  funext ns
  simp only [entry, links_congr h, h]

lemma entry_eq_none {ns : List CString} : v.entry root ns = none ↔ walk (links v) root ns = none := by
  rw [entry, Option.map_eq_none_iff]

lemma entry_of_append {ns ms : List CString} (h : v.entry root (ns ++ ms) ≠ none) :
    v.entry root ns ≠ none := by
  rw [Ne, entry_eq_none] at h ⊢
  intro hnone
  rw [walk_append, hnone] at h
  exact h rfl

lemma entry_names {ns : List CString} (h : v.entry root ns ≠ none) : ∀ n ∈ ns, n.length ≤ 31 := by
  cases hw : walk (links v) root ns with
  | none => exact absurd (entry_eq_none.mpr hw) h
  | some i =>
    refine name_of_walk (fun j n k hk => ?_) hw
    obtain ⟨_, rfl⟩ := mem_links.mp hk
    exact Nat.le_of_lt_succ (v.nodes k).name.2

variable {current : ℕ} {x : VfsNode} (h : NewNode v w current x) (hr : Rooted v root)

include h hr

lemma NewNode.walk_gain {ps : List CString} (hw : walk (links v) root ps = some current)
    (hx : x.children = []) (ns : List CString) :
    walk (links w) root ns = (walk (links v) root ns).or
      (if ns = ps ++ [x.name.val] then some v.ramfs.heap.calls else none) := by
  have hc := hr.walk_lt hw
  have hleaf : links v v.ramfs.heap.calls = [] := by
    rw [links, hr.leaf _ le_rfl]
    rfl
  rw [h.links_eq hr hc hx, hr.tree.walk_link_or hleaf hc.ne' hw]

lemma NewNode.entry_eq {ps : List CString} (hw : walk (links v) root ps = some current)
    (hx : x.children = []) :
    w.entry root = gain (v.entry root) (ps ++ [x.name.val]) (some (x.type.entry x.fsFd)) := by
  funext ns
  rw [entry, gain, h.walk_gain hr hw hx, entry]
  cases hns : walk (links v) root ns with
  | some i =>
    obtain ⟨cs, hcs⟩ := h.keeps (hr.walk_lt hns).ne
    rw [Option.some_or, Option.map_some, Option.map_some, Option.some_or, hcs]
  | none =>
    by_cases hp : ns = ps ++ [x.name.val]
    · rw [if_pos hp, if_pos hp, Option.none_or, Option.map_some, Option.map_none, Option.none_or, h.self]
    · rw [if_neg hp, if_neg hp]
      rfl

lemma NewNode.entry_of_unreached (hw : ∀ ns, walk (links v) root ns ≠ some current)
    (hc : current < v.ramfs.heap.calls) (hx : x.children = []) : w.entry root = v.entry root := by
  have hleaf : links v v.ramfs.heap.calls = [] := by
    rw [links, hr.leaf _ le_rfl]
    rfl
  funext ns
  rw [entry, entry, h.links_eq hr hc hx, walk_link_of_unreached hleaf hc.ne' hw]
  cases hns : walk (links v) root ns with
  | some i =>
    obtain ⟨cs, hcs⟩ := h.keeps (hr.walk_lt hns).ne
    rw [Option.map_some, Option.map_some, hcs]
  | none => rfl

end Entry

end Vfs

end Veni.Filesystem
