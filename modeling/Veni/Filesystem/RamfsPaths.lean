import Veni.Filesystem.RamfsInvariant

/-! On well-formed paths the RAM file system refines a map from component lists to inodes. -/

namespace Veni.Filesystem

open Veni.Libc Veni.Lib.Tokens Veni.Lib.NameGraph Veni.Lib.Transition

def IsComponent (c : CString) : Prop := IsWord isSlash c ∧ c.length ≤ 31

instance (c : CString) : Decidable (IsComponent c) :=
  have : Decidable (∀ x ∈ c, isSlash x = false) := List.decidableBAll _ c
  inferInstanceAs (Decidable ((c ≠ [] ∧ ∀ x ∈ c, isSlash x = false) ∧ c.length ≤ 31))

/-- A well-formed relative path. -/
structure Path where
  components : List CString
  ne_nil : components ≠ []
  component : ∀ c ∈ components, IsComponent c
  length_le : (join slash components).length ≤ 255

namespace Path

variable (p : Path)

def str : CString := join slash p.components

def parent : List CString := p.components.dropLast

def name : CString := p.components.getLast p.ne_nil

lemma parent_append_name : p.parent ++ [p.name] = p.components :=
  List.dropLast_concat_getLast p.ne_nil

lemma name_mem : p.name ∈ p.components := List.getLast_mem p.ne_nil

lemma parent_subset {c : CString} (h : c ∈ p.parent) : c ∈ p.components :=
  List.dropLast_subset _ h

lemma word {c : CString} (h : c ∈ p.components) : IsWord isSlash c := (p.component c h).1

lemma components_str : Ramfs.components p.str = p.components :=
  Ramfs.components_join (fun _ => p.word) p.length_le

lemma splitPath_str : Ramfs.splitPath p.str = (join slash p.parent, p.name) := by
  have hlen := p.length_le
  rw [str]
  rw [← p.parent_append_name] at hlen ⊢
  exact Ramfs.splitPath_join (p.word p.name_mem) hlen

lemma components_parent : Ramfs.components (join slash p.parent) = p.parent := by
  have hle := length_join_le_append slash p.parent [p.name]
  rw [p.parent_append_name] at hle
  exact Ramfs.components_join (fun _ hc => p.word (p.parent_subset hc)) (hle.trans p.length_le)

lemma name_take : p.name.take 31 = p.name :=
  List.take_of_length_le (p.component p.name p.name_mem).2

end Path

namespace Ramfs

def view (r : Ramfs) (p : Path) : Option (ℕ × InodeType) :=
  (ramfsFindInode r p.str).1.map fun i => (i, (r.inodes i).type)

def ParentIsDir (r : Ramfs) (p : Path) : Prop :=
  ∃ i, (ramfsFindInode r (join slash p.parent)).1 = some i ∧ (r.inodes i).type = .dir

def SlotUnused (r : Ramfs) : Prop := ∃ i < ramfsMaxFiles, (r.inodes i).used = false

def IsEmptyDir (r : Ramfs) (p : Path) : Prop :=
  (∃ i, view r p = some (i, .dir)) ∧
    ∀ q : Path, p.components <+: q.components → q.components ≠ p.components → view r q = none

structure Adds (type : InodeType) (r s : Ramfs) (p : Path) (ok : Prop) : Prop where
  iff : ok ↔ ParentIsDir r p ∧ view r p = none ∧ SlotUnused r
  added : ok → ∃ idx, view s p = some (idx, type)
  frame : ∀ q : Path, ¬ (ok ∧ q.components = p.components) → view s q = view r q

structure Takes (r s : Ramfs) (ok : Prop) (gone : Path → Prop) : Prop where
  removed : ok → ∀ q : Path, gone q → view s q = none
  frame : ∀ q : Path, ¬ (ok ∧ gone q) → view s q = view r q

structure Tidy (inodes : ℕ → RamfsInode) : Prop where
  sound : Sound inodes
  names : ∀ i, ((links inodes i).map Prod.fst).Nodup
  valid : ∀ ns j, walk (links inodes) 0 ns = some j → ns ≠ [] → ∃ p : Path, p.components = ns

section Lookup

variable {r s : Ramfs}

lemma find_str (h : Sound r.inodes) (p : Path) :
    (ramfsFindInode r p.str).1 = walk (links r.inodes) 0 p.components := by
  rw [findInode_eq h, p.components_str]

lemma find_parent (h : Sound r.inodes) (p : Path) :
    (ramfsFindInode r (join slash p.parent)).1 = walk (links r.inodes) 0 p.parent := by
  rw [findInode_eq h, p.components_parent]

lemma view_eq (h : Sound r.inodes) (p : Path) :
    view r p = (walk (links r.inodes) 0 p.components).map fun i => (i, (r.inodes i).type) := by
  rw [view, find_str h]

lemma parentOf_str (inodes : ℕ → RamfsInode) (p : Path) :
    parentOf inodes p.str = walk (links inodes) 0 p.parent := by
  rw [parentOf, p.splitPath_str, p.components_parent]

lemma view_congr (h : Sound r.inodes) (he : s.inodes = r.inodes) (p : Path) : view s p = view r p := by
  rw [view_eq h, view_eq (by rw [he]; exact h), he]

lemma enters_iff (h : Sound r.inodes) (p : Path) :
    (∃ i idx, Enters r.inodes p.str i idx) ↔ ParentIsDir r p ∧ view r p = none ∧ SlotUnused r := by
  have hview : ∀ i, UsedDir r.inodes i → walk (links r.inodes) 0 p.parent = some i →
      (view r p = none ↔ findEntry (r.inodes i).entries p.name = none) := by
    intro i hd hw
    rw [view_eq h, ← p.parent_append_name, walk_concat, hw, Option.bind_some, target_links hd]
    simp
  constructor
  · rintro ⟨i, idx, he⟩
    have hw := he.parent
    rw [parentOf_str] at hw
    have habs := he.absent
    rw [p.splitPath_str] at habs
    exact ⟨⟨i, by rw [find_parent h, hw], he.dir.2.2⟩, (hview i he.dir hw).mpr habs, idx, he.free.1,
      he.free.2.1⟩
  · rintro ⟨⟨i, hw, hd⟩, hnone, j, hj, hu⟩
    rw [find_parent h] at hw
    have hused := h.usedDir (by rw [parentOf_str]; exact hw) hd
    rcases allocInode_cases r with ⟨hfull, _⟩ | ⟨idx, hfree, _⟩
    · rw [hfull j hj] at hu
      cases hu
    · refine ⟨i, idx, by rw [parentOf_str]; exact hw, hused, ?_, hfree⟩
      rw [p.splitPath_str]
      exact (hview i hused hw).mp hnone

lemma exists_iff (h : Sound r.inodes) (p : Path) :
    (∃ i e, Exists r.inodes p.str i e) ↔ view r p ≠ none := by
  rw [view_eq h, ← p.parent_append_name, walk_concat, ← parentOf_str]
  constructor
  · rintro ⟨i, e, he⟩
    have ht := he.target
    rw [p.splitPath_str] at ht
    rw [he.parent, Option.bind_some, ht]
    simp
  · intro hne
    cases hp : parentOf r.inodes p.str with
    | none => simp [hp] at hne
    | some i =>
      rw [hp, Option.bind_some] at hne
      cases ht : target (links r.inodes i) p.name with
      | none => simp [ht] at hne
      | some j =>
        have hd := (mem_links.mp (mem_of_target ht)).1
        rw [target_links hd] at ht
        obtain ⟨e, he, _⟩ := Option.map_eq_some_iff.mp ht
        exact ⟨i, e, hp, hd, by rw [p.splitPath_str]; exact he⟩

end Lookup

section Added

variable {r s : Ramfs} {p : Path} {i idx : ℕ} {type : InodeType}

lemma Sound.walk_added (h : Sound r.inodes) (he : Enters r.inodes p.str i idx) (ns : List CString) :
    walk (links (Ramfs.added r.inodes type i p.name idx)) 0 ns =
      if ns = p.components then some idx else walk (links r.inodes) 0 ns := by
  have hleaf : links r.inodes idx = [] := by
    have hnot : ¬ UsedDir r.inodes idx := fun hu => he.free.ne hu rfl
    rw [links, if_neg hnot]
  have hparent := he.parent
  rw [parentOf_str] at hparent
  have habs := he.absent
  rw [p.splitPath_str] at habs
  have hnone : target (links r.inodes i) p.name = none := by
    rw [target_links he.dir, habs]
    rfl
  rw [links_added type he.dir he.free.2.1 he.free.1, p.name_take,
    h.tree.walk_link_eq hleaf (he.free.ne he.dir) hparent hnone, p.parent_append_name]

lemma Tidy.added (h : Tidy r.inodes) (he : Enters r.inodes p.str i idx) (type : InodeType) :
    Tidy (added r.inodes type i p.name idx) where
  sound := h.sound.added type _ he.dir he.free
  names := by
    rw [links_added type he.dir he.free.2.1 he.free.1, p.name_take]
    refine nodup_names_link h.names fun k hk => ?_
    have habs := he.absent
    rw [p.splitPath_str] at habs
    have hnone : target (links r.inodes i) p.name = none := by
      rw [target_links he.dir, habs]
      rfl
    exact target_eq_none.mp hnone k hk
  valid ns j hw hne := by
    rw [h.sound.walk_added he] at hw
    by_cases hns : ns = p.components
    · exact ⟨p, hns.symm⟩
    · rw [if_neg hns] at hw
      exact h.valid ns j hw hne

lemma type_added {inodes : ℕ → RamfsInode} {basename : CString} (hd : UsedDir inodes i)
    (hf : FirstFree inodes idx) {j : ℕ} (hj : (inodes j).used = true) :
    (Ramfs.added inodes type i basename idx j).type = (inodes j).type := by
  have hji : j ≠ idx := by
    rintro rfl
    rw [hf.2.1] at hj
    cases hj
  by_cases hjp : j = i
  · rw [hjp, added_parent type (hf.ne hd)]
  · rw [added_of_ne type hji hjp]

lemma Sound.adds {ok : Prop} (h : Sound r.inodes) (he : Enters r.inodes p.str i idx)
    (hs : s.inodes = Ramfs.added r.inodes type i p.name idx) (hok : ok) :
    view s p = some (idx, type) ∧ Adds type r s p ok := by
  have hsound : Sound s.inodes := by
    rw [hs]
    exact h.added type _ he.dir he.free
  have hview : view s p = some (idx, type) := by
    rw [view_eq hsound, hs, h.walk_added he, if_pos rfl, Option.map_some,
      added_self type (he.free.ne he.dir)]
    rfl
  refine ⟨hview, ⟨fun _ => (enters_iff h p).mp ⟨i, idx, he⟩, fun _ => hok⟩,
    fun _ => ⟨idx, hview⟩, fun q hq => ?_⟩
  have hne : q.components ≠ p.components := fun heq => hq ⟨hok, heq⟩
  rw [view_eq hsound, view_eq h, hs, h.walk_added he, if_neg hne]
  cases hw : walk (links r.inodes) 0 q.components with
  | none => rfl
  | some j =>
    have hlive := h.live_walk hw
    rw [Option.map_some, Option.map_some, type_added he.dir he.free hlive.2]

lemma adds_of_same {ok : Prop} (h : Sound r.inodes) (hs : s.inodes = r.inodes) (hok : ¬ ok)
    (hno : ∀ i idx, ¬ Enters r.inodes p.str i idx) : Adds type r s p ok where
  iff := by
    rw [← enters_iff h p]
    exact ⟨fun hc => absurd hc hok, fun ⟨i, idx, he⟩ => absurd he (hno i idx)⟩
  added hc := absurd hc hok
  frame q _ := view_congr h hs q

end Added

section Removed

variable {r s : Ramfs} {p : Path} {i : ℕ} {e : RamfsDirent}

open scoped Classical in
lemma Tidy.walk_removed (h : Tidy r.inodes) (he : Exists r.inodes p.str i e) (ns : List CString) :
    walk (links (removed r.inodes i p.name e.inodeIdx)) 0 ns =
      if p.components <+: ns then none else walk (links r.inodes) 0 ns := by
  have hparent := he.parent
  rw [parentOf_str] at hparent
  have htarget := he.target
  rw [p.splitPath_str] at htarget
  rw [links_removed he.dir (he.ne h.sound),
    h.sound.tree.walk_cut_eq hparent htarget (h.names i), p.parent_append_name]

lemma Tidy.removed (h : Tidy r.inodes) (he : Exists r.inodes p.str i e) :
    Tidy (removed r.inodes i p.name e.inodeIdx) where
  sound := by
    have hentry := he.entry
    rw [p.splitPath_str] at hentry
    exact h.sound.removed he.dir hentry (he.ne h.sound)
  names := by
    rw [links_removed he.dir (he.ne h.sound)]
    exact nodup_names_cut h.names _ _ _
  valid ns j hw hne := by
    rw [h.walk_removed he] at hw
    split at hw
    · cases hw
    · exact h.valid ns j hw hne

lemma type_removed {inodes : ℕ → RamfsInode} {basename : CString} {idx : ℕ} (hne : idx ≠ i) (j : ℕ) :
    (Ramfs.removed inodes i basename idx j).type = (inodes j).type := by
  by_cases hj : j = idx
  · rw [hj, removed_self hne]
  · by_cases hji : j = i
    · rw [hji, removed_parent hne]
    · rw [removed_of_ne hj hji]

lemma Tidy.takes {ok : Prop} {gone : Path → Prop} (h : Tidy r.inodes)
    (he : Exists r.inodes p.str i e) (hs : s.inodes = Ramfs.removed r.inodes i p.name e.inodeIdx)
    (hok : ok) (hgone : ∀ q : Path, gone q → p.components <+: q.components)
    (hkept : ∀ q : Path, p.components <+: q.components → ¬ gone q → view r q = none) :
    Takes r s ok gone := by
  have hsound : Sound s.inodes := by
    rw [hs]
    exact (h.removed he).sound
  have hview : ∀ q : Path, p.components <+: q.components → view s q = none := by
    intro q hq
    rw [view_eq hsound, hs, h.walk_removed he, if_pos hq]
    rfl
  refine ⟨fun _ q hq => hview q (hgone q hq), fun q hq => ?_⟩
  have hnot : ¬ gone q := fun hg => hq ⟨hok, hg⟩
  by_cases hpre : p.components <+: q.components
  · rw [hview q hpre, hkept q hpre hnot]
  · rw [view_eq hsound, view_eq h.sound, hs, h.walk_removed he, if_neg hpre]
    simp only [type_removed (he.ne h.sound)]

lemma takes_of_same {ok : Prop} {gone : Path → Prop} (h : Sound r.inodes) (hs : s.inodes = r.inodes)
    (hok : ¬ ok) : Takes r s ok gone where
  removed hc := absurd hc hok
  frame q _ := view_congr h hs q

end Removed

lemma walk_eq_of_view {r : Ramfs} (h : Sound r.inodes) {p : Path} {i : ℕ} {t : InodeType}
    (hv : view r p = some (i, t)) :
    walk (links r.inodes) 0 p.components = some i ∧ (r.inodes i).type = t := by
  rw [view_eq h] at hv
  obtain ⟨j, hw, hj⟩ := Option.map_eq_some_iff.mp hv
  cases hj
  exact ⟨hw, rfl⟩

lemma emptyDir_iff {r : Ramfs} (h : Tidy r.inodes) (p : Path) :
    (∃ i e, EmptyDir r.inodes p.str i e) ↔ IsEmptyDir r p := by
  constructor
  · rintro ⟨i, e, he⟩
    have hw := he.walk_eq
    rw [p.components_str] at hw
    refine ⟨⟨e.inodeIdx, ?_⟩, fun q ⟨cs, hq⟩ hne => ?_⟩
    · rw [view_eq h.sound, hw, Option.map_some, he.dir.2.2]
    · have hleaf : links r.inodes e.inodeIdx = [] := by
        rw [links_of_usedDir he.dir, he.empty]
        rfl
      have hcs : cs ≠ [] := by
        rintro rfl
        exact hne (by rw [← hq, List.append_nil])
      rw [view_eq h.sound, ← hq, walk_append, hw, Option.bind_some, walk_of_nil hleaf hcs]
      rfl
  · rintro ⟨⟨i, hv⟩, hbelow⟩
    obtain ⟨hw, hdir⟩ := walk_eq_of_view h.sound hv
    obtain ⟨k, e, he⟩ := (exists_iff h.sound p).mpr (by rw [hv]; simp)
    have htarget := he.target
    rw [p.splitPath_str] at htarget
    have hparent := he.parent
    rw [parentOf_str] at hparent
    have hidx : e.inodeIdx = i := by
      rw [← p.parent_append_name, walk_concat, hparent, Option.bind_some, htarget] at hw
      cases hw
      rfl
    have hused : UsedDir r.inodes i := ⟨(h.sound.live_walk hw).1, (h.sound.live_walk hw).2, hdir⟩
    refine ⟨k, e, he, ?_, hidx ▸ hused, ?_⟩
    · rw [p.splitPath_str]
      exact (p.component _ p.name_mem).1.1
    · rw [hidx]
      by_contra hne
      obtain ⟨d, hd⟩ := List.exists_mem_of_ne_nil _ hne
      -- an entry of the directory is a path below it
      cases ht : target (links r.inodes i) d.name.val with
      | none => exact target_eq_none.mp ht _ (mem_links.mpr ⟨hused, d, hd, rfl, rfl⟩)
      | some j =>
        have hwalk : walk (links r.inodes) 0 (p.components ++ [d.name.val]) = some j := by
          rw [walk_concat, hw, Option.bind_some, ht]
        obtain ⟨q, hq⟩ := h.valid _ j hwalk (by simp)
        have hnone := hbelow q ⟨[d.name.val], hq.symm⟩ (by rw [hq]; simp)
        rw [view_eq h.sound, hq, hwalk] at hnone
        cases hnone

section Creation

variable {r : Ramfs} (h : Sound r.inodes) (p : Path)

include h

lemma Sound.create :
    Adds .file r (ramfsCreate r p.str).2 p ((ramfsCreate r p.str).1 ≠ none) ∧
      ∀ idx, (ramfsCreate r p.str).1 = some idx →
        view (ramfsCreate r p.str).2 p = some (idx, .file) := by
  rcases (create_cases h p.str).2 with ⟨hres, hs, hno⟩ | ⟨i, idx, he, hres, hs⟩
  · refine ⟨adds_of_same h hs (not_not.mpr hres) hno, fun idx hc => ?_⟩
    rw [hres] at hc
    cases hc
  · rw [p.splitPath_str] at hs
    have hok : (ramfsCreate r p.str).1 ≠ none := by
      rw [hres]
      simp
    obtain ⟨hview, hadds⟩ := h.adds he hs hok
    refine ⟨hadds, fun j hj => ?_⟩
    rw [hres] at hj
    cases hj
    exact hview

lemma Sound.mkdir :
    (view r p = none → Adds .dir r (ramfsMkdir r p.str).2 p ((ramfsMkdir r p.str).1 = true)) ∧
      (view r p ≠ none →
        (ramfsMkdir r p.str).1 = true ∧ ∀ q, view (ramfsMkdir r p.str).2 q = view r q) := by
  rcases (mkdir_cases h p.str).2 with
    ⟨hres, hs, hno, hnex⟩ | ⟨i, e, hex, hres, hs⟩ | ⟨i, idx, he, hres, hs⟩
  · refine ⟨fun _ => adds_of_same h hs (by simp [hres]) hno, fun hv => ?_⟩
    obtain ⟨i, e, hex⟩ := (exists_iff h p).mpr hv
    exact absurd hex (hnex i e)
  · exact ⟨fun hv => absurd hv ((exists_iff h p).mp ⟨i, e, hex⟩),
      fun _ => ⟨hres, view_congr h hs⟩⟩
  · rw [p.splitPath_str] at hs
    exact ⟨fun _ => (h.adds he hs hres).2, fun hv => absurd ((enters_iff h p).mp ⟨i, idx, he⟩).2.1 hv⟩

end Creation

section Operations

variable {r : Ramfs} (h : Tidy r.inodes) (p : Path)

include h

lemma Tidy.create : Tidy (ramfsCreate r p.str).2.inodes := by
  rcases (create_cases h.sound p.str).2 with ⟨_, hs, _⟩ | ⟨i, idx, he, _, hs⟩
  · rw [hs]
    exact h
  · rw [p.splitPath_str] at hs
    rw [hs]
    exact h.added he .file

lemma Tidy.mkdir : Tidy (ramfsMkdir r p.str).2.inodes := by
  rcases (mkdir_cases h.sound p.str).2 with ⟨_, hs, _⟩ | ⟨_, _, _, _, hs⟩ | ⟨i, idx, he, _, hs⟩
  · rw [hs]
    exact h
  · rw [hs]
    exact h
  · rw [p.splitPath_str] at hs
    rw [hs]
    exact h.added he .dir

lemma Tidy.unlink :
    Tidy (ramfsUnlink r p.str).2.inodes ∧ ((ramfsUnlink r p.str).1 = true ↔ view r p ≠ none) ∧
      Takes r (ramfsUnlink r p.str).2 ((ramfsUnlink r p.str).1 = true)
        fun q => p.components <+: q.components := by
  rcases unlink_cases h.sound p.str with ⟨hres, hs, _, hnex⟩ | ⟨i, e, hex, hres, hs, _⟩
  · refine ⟨by rw [hs]; exact h, ?_, takes_of_same h.sound hs (by simp [hres])⟩
    rw [← exists_iff h.sound p, hres]
    simp only [Bool.false_eq_true, false_iff]
    exact fun ⟨i, e, hex⟩ => hnex i e hex
  · rw [p.splitPath_str] at hs
    exact ⟨by rw [hs]; exact h.removed hex,
      iff_of_true hres ((exists_iff h.sound p).mp ⟨i, e, hex⟩),
      h.takes hex hs hres (fun q hq => hq) fun q hq hnot => absurd hq hnot⟩

lemma Tidy.rmdir :
    Tidy (ramfsRmdir r p.str).2.inodes ∧ ((ramfsRmdir r p.str).1 = true ↔ IsEmptyDir r p) ∧
      Takes r (ramfsRmdir r p.str).2 ((ramfsRmdir r p.str).1 = true)
        fun q => q.components = p.components := by
  rcases (rmdir_cases h.sound p.str).2 with ⟨hres, hs, hno⟩ | ⟨i, e, he, hres, hs⟩
  · refine ⟨by rw [hs]; exact h, ?_, takes_of_same h.sound hs (by simp [hres])⟩
    rw [← emptyDir_iff h p, hres]
    simp only [Bool.false_eq_true, false_iff]
    exact fun ⟨i, e, he⟩ => hno i e he
  · rw [p.splitPath_str] at hs
    have hempty := (emptyDir_iff h p).mp ⟨i, e, he⟩
    exact ⟨by rw [hs]; exact h.removed he.found, iff_of_true hres hempty,
      h.takes he.found hs hres (fun q hq => by rw [hq]) fun q hq hne => hempty.2 q hq hne⟩

end Operations

inductive PathOp
  | create (p : Path)
  | mkdir (p : Path)
  | unlink (p : Path)
  | rmdir (p : Path)

def PathOp.op : PathOp → Op
  | .create p => .create p.str
  | .mkdir p => .mkdir p.str
  | .unlink p => .unlink p.str
  | .rmdir p => .rmdir p.str

def PathStep (r : Ramfs) (o : PathOp) (s : Ramfs) : Prop := Step r o.op s

lemma Tidy.step {r s : Ramfs} {o : PathOp} (h : Tidy r.inodes) (hs : PathStep r o s) :
    Tidy s.inodes := by
  cases o with
  | create p =>
    cases hs
    exact h.create p
  | mkdir p =>
    cases hs
    exact h.mkdir p
  | unlink p =>
    cases hs
    exact (h.unlink p).1
  | rmdir p =>
    cases hs
    exact (h.rmdir p).1

lemma init_links (r : Ramfs) (i : ℕ) : links (ramfsInit r).inodes i = [] := by
  by_cases hi : i = 0
  · subst hi
    rw [links_of_usedDir (init_sound r).root]
    rfl
  · have hnot : ¬ UsedDir (ramfsInit r).inodes i := fun hu => by
      have := hu.2.1
      simp [ramfsInit, hi] at this
    rw [links, if_neg hnot]

lemma init_tidy (r : Ramfs) : Tidy (ramfsInit r).inodes where
  sound := init_sound r
  names i := by
    rw [init_links]
    exact List.nodup_nil
  valid ns j hw hne := by
    rw [walk_of_nil (init_links r 0) hne] at hw
    cases hw

end Ramfs

end Veni.Filesystem
