import Veni.Filesystem.RamfsTable
import Veni.Lib.Transition

/-! The inode table under every operation on every path: entries name used inodes, each at most once. -/

namespace Veni.Filesystem.Ramfs

open Veni.Libc Veni.Lib.Tokens Veni.Lib.NameGraph Veni.Lib.Transition

lemma Sound.usedDir {inodes : ℕ → RamfsInode} (h : Sound inodes) {path : CString} {p : ℕ}
    (hp : parentOf inodes path = some p) (hd : (inodes p).type = .dir) : UsedDir inodes p :=
  ⟨(h.live_walk hp).1, (h.live_walk hp).2, hd⟩

structure Enters (inodes : ℕ → RamfsInode) (path : CString) (p idx : ℕ) : Prop where
  parent : parentOf inodes path = some p
  dir : UsedDir inodes p
  absent : findEntry (inodes p).entries (splitPath path).2 = none
  free : FirstFree inodes idx

structure Exists (inodes : ℕ → RamfsInode) (path : CString) (p : ℕ) (e : RamfsDirent) : Prop where
  parent : parentOf inodes path = some p
  dir : UsedDir inodes p
  entry : findEntry (inodes p).entries (splitPath path).2 = some e

lemma Enters.not_exists {inodes : ℕ → RamfsInode} {path : CString} {p q idx : ℕ} {e : RamfsDirent}
    (h : Enters inodes path p idx) : ¬ Exists inodes path q e := by
  intro he
  have hpq := h.parent.symm.trans he.parent
  cases hpq
  have habs := h.absent.symm.trans he.entry
  cases habs

lemma addEntry_eq {r : Ramfs} {p idx : ℕ} {basename : CString} (h : (r.inodes p).entries.length ≤ 63) :
    addEntry r p basename idx = some (r.setInode p { r.inodes p with
      entries := (r.inodes p).entries ++ [⟨strncpy 31 basename, idx⟩] }) := by
  have hroom : ¬ ramfsMaxEntries ≤ (r.inodes p).entries.length := by
    simp only [ramfsMaxEntries]
    omega
  simp only [addEntry, if_neg hroom]

inductive Lookup (r : Ramfs) (path : CString) : Option ℕ × Ramfs → Prop
  | missing {s : Ramfs} (hi : s.inodes = r.inodes) (hh : s.heap = r.heap)
      (hno : ∀ p, parentOf r.inodes path = some p → ¬ UsedDir r.inodes p) : Lookup r path (none, s)
  | notDir {s : Ramfs} {p : ℕ} (hi : s.inodes = r.inodes) (hh : s.heap = r.heap)
      (hdir : (r.inodes p).type ≠ .dir)
      (hno : ∀ p, parentOf r.inodes path = some p → ¬ UsedDir r.inodes p) : Lookup r path (some p, s)
  | absent {s : Ramfs} {p : ℕ} (hi : s.inodes = r.inodes) (hh : s.heap = r.heap)
      (hp : parentOf r.inodes path = some p) (hd : UsedDir r.inodes p)
      (hf : findEntry (r.inodes p).entries (splitPath path).2 = none)
      (hno : ∀ q e, ¬ Exists r.inodes path q e) : Lookup r path (some p, s)
  | present {s : Ramfs} {p : ℕ} {e : RamfsDirent} (hi : s.inodes = r.inodes) (hh : s.heap = r.heap)
      (he : Exists r.inodes path p e) : Lookup r path (some p, s)

lemma lookup {r : Ramfs} (h : Sound r.inodes) (path : CString) :
    Lookup r path (ramfsFindInode r (splitPath path).1) := by
  have hwalk := findInode_eq h (splitPath path).1
  obtain ⟨hi, hh⟩ := findInode_inodes r (splitPath path).1
  generalize ramfsFindInode r (splitPath path).1 = found at *
  obtain ⟨result, s⟩ := found
  simp only at hwalk hi hh
  cases result with
  | none =>
    refine .missing hi hh fun p hp _ => ?_
    have hnone := hwalk.trans hp
    cases hnone
  | some p =>
    have hp : parentOf r.inodes path = some p := hwalk.symm
    by_cases hdir : (r.inodes p).type = .dir
    · have hd := h.usedDir hp hdir
      cases hf : findEntry (r.inodes p).entries (splitPath path).2 with
      | some e => exact .present hi hh ⟨hp, hd, hf⟩
      | none =>
        refine .absent hi hh hp hd hf fun q e he => ?_
        have hpq := hp.symm.trans he.parent
        cases hpq
        have habs := hf.symm.trans he.entry
        cases habs
    · refine .notDir hi hh hdir fun q hq hd => ?_
      have hpq := hp.symm.trans hq
      cases hpq
      exact hdir hd.2.2

lemma create_cases {r : Ramfs} (h : Sound r.inodes) (path : CString) :
    (ramfsCreate r path).2.heap = r.heap ∧
      (((ramfsCreate r path).1 = none ∧ (ramfsCreate r path).2.inodes = r.inodes ∧
          ∀ p idx, ¬ Enters r.inodes path p idx) ∨
        ∃ p idx, Enters r.inodes path p idx ∧ (ramfsCreate r path).1 = some idx ∧
          (ramfsCreate r path).2.inodes = added r.inodes .file p (splitPath path).2 idx) := by
  have hlookup := lookup h path
  simp only [ramfsCreate]
  generalize ramfsFindInode r (splitPath path).1 = found at hlookup ⊢
  cases hlookup with
  | missing hi hh hno => exact ⟨hh, .inl ⟨rfl, hi, fun p idx he => hno p he.parent he.dir⟩⟩
  | notDir hi hh hdir hno =>
    simp only [hi]
    rw [if_pos hdir]
    exact ⟨hh, .inl ⟨rfl, hi, fun p idx he => hno p he.parent he.dir⟩⟩
  | present hi hh he =>
    simp only [hi]
    rw [if_neg (not_not.mpr he.dir.2.2), he.entry]
    exact ⟨hh, .inl ⟨rfl, hi, fun p idx hent => hent.not_exists he⟩⟩
  | @absent s p hi hh hp hd hf _ =>
    simp only [hi]
    rw [if_neg (not_not.mpr hd.2.2), hf]
    rcases allocInode_cases s with ⟨hfull, halloc⟩ | ⟨idx, hfree, halloc⟩
    · rw [halloc]
      refine ⟨hh, .inl ⟨rfl, hi, fun q idx he => ?_⟩⟩
      have hu := hfull idx he.free.1
      rw [hi, he.free.2.1] at hu
      cases hu
    · rw [hi] at hfree
      have hne := hfree.ne hd
      have hroom : ((s.setInode idx (emptyInode .file)).inodes p).entries.length ≤ 63 := by
        simpa [setInode, hne.symm, hi] using h.length_le hd
      rw [halloc]
      simp only [Option.isSome_none, Bool.false_eq_true, if_false, addEntry_eq hroom]
      refine ⟨hh, .inr ⟨p, idx, ⟨hp, hd, hf, hfree⟩, rfl, ?_⟩⟩
      simp only [setInode, hi]
      rfl

lemma mkdir_cases {r : Ramfs} (h : Sound r.inodes) (path : CString) :
    (ramfsMkdir r path).2.heap = r.heap ∧
      (((ramfsMkdir r path).1 = false ∧ (ramfsMkdir r path).2.inodes = r.inodes ∧
          (∀ p idx, ¬ Enters r.inodes path p idx) ∧ ∀ p e, ¬ Exists r.inodes path p e) ∨
        (∃ p e, Exists r.inodes path p e ∧ (ramfsMkdir r path).1 = true ∧
          (ramfsMkdir r path).2.inodes = r.inodes) ∨
        ∃ p idx, Enters r.inodes path p idx ∧ (ramfsMkdir r path).1 = true ∧
          (ramfsMkdir r path).2.inodes = added r.inodes .dir p (splitPath path).2 idx) := by
  have hlookup := lookup h path
  simp only [ramfsMkdir]
  generalize ramfsFindInode r (splitPath path).1 = found at hlookup ⊢
  cases hlookup with
  | missing hi hh hno =>
    exact ⟨hh, .inl ⟨rfl, hi, fun p idx he => hno p he.parent he.dir, fun p e he => hno p he.parent he.dir⟩⟩
  | notDir hi hh hdir hno =>
    simp only [hi]
    rw [if_pos hdir]
    exact ⟨hh, .inl ⟨rfl, hi, fun p idx he => hno p he.parent he.dir, fun p e he => hno p he.parent he.dir⟩⟩
  | @present s p e hi hh he =>
    simp only [hi]
    rw [if_neg (not_not.mpr he.dir.2.2), he.entry]
    exact ⟨hh, .inr (.inl ⟨p, e, he, rfl, hi⟩)⟩
  | @absent s p hi hh hp hd hf hnot =>
    simp only [hi]
    rw [if_neg (not_not.mpr hd.2.2), hf]
    rcases allocInode_cases s with ⟨hfull, halloc⟩ | ⟨idx, hfree, halloc⟩
    · rw [halloc]
      refine ⟨hh, .inl ⟨rfl, hi, fun q idx he => ?_, hnot⟩⟩
      have hu := hfull idx he.free.1
      rw [hi, he.free.2.1] at hu
      cases hu
    · rw [hi] at hfree
      have hne := hfree.ne hd
      have hroom : (((s.setInode idx (emptyInode .file)).setInode idx
          { (s.setInode idx (emptyInode .file)).inodes idx with type := .dir }).inodes
            p).entries.length ≤ 63 := by
        simpa [setInode, hne.symm, hi] using h.length_le hd
      rw [halloc]
      simp only [Option.isSome_none, Bool.false_eq_true, if_false]
      rw [addEntry_eq hroom]
      refine ⟨hh, .inr (.inr ⟨p, idx, ⟨hp, hd, hf, hfree⟩, rfl, ?_⟩)⟩
      simp only [setInode, Function.update_idem, Function.update_self, hi]
      rfl

lemma Exists.target {inodes : ℕ → RamfsInode} {path : CString} {p : ℕ} {e : RamfsDirent}
    (h : Exists inodes path p e) : target (links inodes p) (splitPath path).2 = some e.inodeIdx := by
  rw [target_links h.dir, h.entry]
  rfl

lemma Exists.ne {inodes : ℕ → RamfsInode} (hs : Sound inodes) {path : CString} {p : ℕ}
    {e : RamfsDirent} (h : Exists inodes path p e) : e.inodeIdx ≠ p := by
  intro he
  have hloop : walk (links inodes) 0 (components (splitPath path).1 ++ [(splitPath path).2]) =
      some p := by
    rw [walk_concat, ← parentOf, h.parent, Option.bind_some, h.target, he]
  have hlen := congrArg List.length (hs.tree.walk_injective hloop h.parent)
  simp at hlen

def freedHeap (r : Ramfs) (idx : ℕ) : Malloc :=
  match (r.inodes idx).data with
  | none => r.heap
  | some p => r.heap.free p

lemma removeEntry_data (r : Ramfs) (p : ℕ) (basename : CString) (i : ℕ) :
    ((removeEntry r p basename).inodes i).data = (r.inodes i).data := by
  by_cases hi : i = p
  · subst hi
    simp [removeEntry, setInode]
  · simp [removeEntry, setInode, hi]

lemma unlink_cases {r : Ramfs} (h : Sound r.inodes) (path : CString) :
    ((ramfsUnlink r path).1 = false ∧ (ramfsUnlink r path).2.inodes = r.inodes ∧
        (ramfsUnlink r path).2.heap = r.heap ∧ ∀ p e, ¬ Exists r.inodes path p e) ∨
      ∃ p e, Exists r.inodes path p e ∧ (ramfsUnlink r path).1 = true ∧
        (ramfsUnlink r path).2.inodes = removed r.inodes p (splitPath path).2 e.inodeIdx ∧
        (ramfsUnlink r path).2.heap = freedHeap r e.inodeIdx := by
  have hlookup := lookup h path
  simp only [ramfsUnlink]
  generalize ramfsFindInode r (splitPath path).1 = found at hlookup ⊢
  cases hlookup with
  | missing hi hh hno => exact .inl ⟨rfl, hi, hh, fun p e he => hno p he.parent he.dir⟩
  | notDir hi hh hdir hno =>
    simp only [hi]
    rw [if_pos hdir]
    exact .inl ⟨rfl, hi, hh, fun p e he => hno p he.parent he.dir⟩
  | absent hi hh _ hd hf hnot =>
    simp only [hi]
    rw [if_neg (not_not.mpr hd.2.2), hf]
    exact .inl ⟨rfl, hi, hh, hnot⟩
  | @present s p e hi hh he =>
    simp only [hi]
    rw [if_neg (not_not.mpr he.dir.2.2), he.entry]
    refine .inr ⟨p, e, he, rfl, ?_, ?_⟩
    · simp only [setUnused, freeData]
      split
      · simp only [removeEntry, setInode, hi]
        rfl
      · simp only [removeEntry, setInode, hi]
        rfl
    · simp only [setUnused, freeData, freedHeap, removeEntry_data, hi]
      cases (r.inodes e.inodeIdx).data with
      | none => exact hh
      | some q => simp only [removeEntry, setInode, hh]

structure EmptyDir (inodes : ℕ → RamfsInode) (path : CString) (p : ℕ) (e : RamfsDirent) : Prop where
  found : Exists inodes path p e
  named : (splitPath path).2 ≠ []
  dir : UsedDir inodes e.inodeIdx
  empty : (inodes e.inodeIdx).entries = []

lemma EmptyDir.walk_eq {inodes : ℕ → RamfsInode} {path : CString} {p : ℕ} {e : RamfsDirent}
    (h : EmptyDir inodes path p e) : walk (links inodes) 0 (components path) = some e.inodeIdx := by
  rw [components_split, tokens_basename h.named, walk_concat, ← parentOf, h.found.parent]
  exact h.found.target

lemma emptyDir_of_found {inodes : ℕ → RamfsInode} (h : Sound inodes) {path : CString} {idx p : ℕ}
    {e : RamfsDirent} (hidx : walk (links inodes) 0 (components path) = some idx)
    (hdir : (inodes idx).type = .dir) (hempty : (inodes idx).entries = [])
    (hp : parentOf inodes path = some p)
    (he : findEntry (inodes p).entries (splitPath path).2 = some e) :
    e.inodeIdx = idx ∧ EmptyDir inodes path p e := by
  have hused : UsedDir inodes idx := ⟨(h.live_walk hidx).1, (h.live_walk hidx).2, hdir⟩
  have hnamed : (splitPath path).2 ≠ [] := by
    intro hnil
    rw [components_split, hnil, tokens_nil, List.append_nil, ← parentOf, hp] at hidx
    cases hidx
    rw [hempty] at he
    cases he
  rw [components_split, tokens_basename hnamed, walk_concat, ← parentOf, hp, Option.bind_some] at hidx
  have hpd := (mem_links.mp (mem_of_target hidx)).1
  rw [target_links hpd, he] at hidx
  cases hidx
  exact ⟨rfl, ⟨hp, hpd, he⟩, hnamed, hused, hempty⟩

lemma rmdir_cases {r : Ramfs} (h : Sound r.inodes) (path : CString) :
    (ramfsRmdir r path).2.heap = r.heap ∧
      (((ramfsRmdir r path).1 = false ∧ (ramfsRmdir r path).2.inodes = r.inodes ∧
          ∀ p e, ¬ EmptyDir r.inodes path p e) ∨
        ∃ p e, EmptyDir r.inodes path p e ∧ (ramfsRmdir r path).1 = true ∧
          (ramfsRmdir r path).2.inodes = removed r.inodes p (splitPath path).2 e.inodeIdx) := by
  have hwalk := findInode_eq h path
  obtain ⟨hinodes, hheap⟩ := findInode_inodes r path
  simp only [ramfsRmdir]
  generalize ramfsFindInode r path = found at *
  obtain ⟨result, r'⟩ := found
  simp only at hwalk hinodes hheap
  cases result with
  | none =>
    refine ⟨hheap, .inl ⟨rfl, hinodes, fun p e he => ?_⟩⟩
    have hp := hwalk.trans he.walk_eq
    cases hp
  | some idx =>
    simp only [hinodes]
    by_cases hdir : (r.inodes idx).type = .dir
    · rw [if_neg (not_not.mpr hdir)]
      by_cases hempty : (r.inodes idx).entries = []
      · rw [if_neg (not_not.mpr hempty)]
        have hpwalk := findInode_eq (r := r') (by rw [hinodes]; exact h) (splitPath path).1
        obtain ⟨hpinodes, hpheap⟩ := findInode_inodes r' (splitPath path).1
        generalize ramfsFindInode r' (splitPath path).1 = pfound at *
        obtain ⟨presult, r''⟩ := pfound
        simp only [hinodes] at hpwalk hpinodes hpheap
        cases presult with
        | none =>
          refine ⟨hpheap.trans hheap, .inl ⟨rfl, hpinodes, fun p e he => ?_⟩⟩
          have hp := hpwalk.trans he.found.parent
          cases hp
        | some p =>
          simp only [hpinodes]
          cases hf : findEntry (r.inodes p).entries (splitPath path).2 with
          | none =>
            refine ⟨hpheap.trans hheap, .inl ⟨rfl, hpinodes, fun q e he => ?_⟩⟩
            have hpq := hpwalk.trans he.found.parent
            cases hpq
            have habs := hf.symm.trans he.found.entry
            cases habs
          | some e =>
            obtain ⟨rfl, hed⟩ := emptyDir_of_found h hwalk.symm hdir hempty hpwalk.symm hf
            refine ⟨?_, .inr ⟨p, e, hed, rfl, ?_⟩⟩
            · simp only [setUnused, removeEntry, setInode, hpheap, hheap]
            · simp only [setUnused, removeEntry, setInode, hpinodes]
              rfl
      · rw [if_pos hempty]
        refine ⟨hheap, .inl ⟨rfl, hinodes, fun p e he => ?_⟩⟩
        have hp := hwalk.trans he.walk_eq
        cases hp
        exact hempty he.empty
    · rw [if_pos hdir]
      refine ⟨hheap, .inl ⟨rfl, hinodes, fun p e he => ?_⟩⟩
      have hp := hwalk.trans he.walk_eq
      cases hp
      exact hdir he.dir.2.2

def SameTree (m n : ℕ → RamfsInode) : Prop :=
  ∀ i, (n i).type = (m i).type ∧ (n i).used = (m i).used ∧ (n i).entries = (m i).entries

lemma SameTree.refl (m : ℕ → RamfsInode) : SameTree m m := fun _ => ⟨rfl, rfl, rfl⟩

lemma SameTree.trans {l m n : ℕ → RamfsInode} (h : SameTree l m) (g : SameTree m n) :
    SameTree l n := fun i =>
  ⟨(g i).1.trans (h i).1, (g i).2.1.trans (h i).2.1, (g i).2.2.trans (h i).2.2⟩

lemma sameTree_of_other {m n : ℕ → RamfsInode} {i : ℕ} (hi : (n i).type = (m i).type ∧
    (n i).used = (m i).used ∧ (n i).entries = (m i).entries) (ho : ∀ j, j ≠ i → n j = m j) :
    SameTree m n := by
  intro j
  by_cases hj : j = i
  · rw [hj]
    exact hi
  · rw [ho j hj]
    exact ⟨rfl, rfl, rfl⟩

lemma sameTree_setInode (r : Ramfs) (i : ℕ) {x : RamfsInode} (ht : x.type = (r.inodes i).type)
    (hu : x.used = (r.inodes i).used) (he : x.entries = (r.inodes i).entries) :
    SameTree r.inodes (r.setInode i x).inodes := by
  refine sameTree_of_other (i := i) ?_ fun j hj => ?_
  · simp [setInode, ht, hu, he]
  · simp [setInode, hj]

lemma SameTree.usedDir {m n : ℕ → RamfsInode} (h : SameTree m n) (i : ℕ) :
    UsedDir n i ↔ UsedDir m i := by
  simp only [UsedDir, (h i).1, (h i).2.1]

lemma SameTree.links {m n : ℕ → RamfsInode} (h : SameTree m n) : links n = links m := by
  funext i
  simp only [Ramfs.links, h.usedDir i, (h i).2.2]

lemma SameTree.sound {m n : ℕ → RamfsInode} (h : SameTree m n) (hs : Sound m) : Sound n where
  root := (h.usedDir 0).mpr hs.root
  entry i hi e he := by
    rw [(h i).2.2] at he
    rw [(h _).2.1]
    exact hs.entry i ((h.usedDir i).mp hi) e he
  nodup i hi := by
    rw [(h i).2.2]
    exact hs.nodup i ((h.usedDir i).mp hi)
  apart i j hi hj e he f hf := by
    rw [(h i).2.2] at he
    rw [(h j).2.2] at hf
    exact hs.apart i j ((h.usedDir i).mp hi) ((h.usedDir j).mp hj) e he f hf

lemma grow_sameTree {r : Ramfs} {fd needed : ℕ} {g : Bool × Ramfs} (h : grow r fd needed = some g) :
    SameTree r.inodes g.2.inodes := by
  simp only [grow] at h
  split at h
  · cases h
    exact SameTree.refl _
  · split at h
    · cases h
      exact SameTree.refl _
    · obtain ⟨heap, _, rfl⟩ := Option.map_eq_some_iff.mp h
      exact sameTree_setInode { r with heap := heap } fd rfl rfl rfl

lemma write_sameTree {r : Ramfs} {fd offset : ℕ} {buf : List UInt8} {w : ℕ × ℕ × Ramfs}
    (h : ramfsWrite r fd buf offset = some w) : SameTree r.inodes w.2.2.inodes := by
  simp only [ramfsWrite] at h
  split at h
  · cases h
    exact SameTree.refl _
  · obtain ⟨g, hg, h⟩ := Option.bind_eq_some_iff.mp h
    have hgrow := grow_sameTree hg
    split at h
    · cases h
      exact hgrow
    · obtain ⟨heap, _, h⟩ := Option.bind_eq_some_iff.mp h
      obtain ⟨heap', _, rfl⟩ := Option.map_eq_some_iff.mp h
      exact hgrow.trans (sameTree_setInode { g.2 with heap := heap' } fd rfl rfl rfl)

inductive Op
  | create (path : CString)
  | mkdir (path : CString)
  | unlink (path : CString)
  | rmdir (path : CString)
  | write (fd : ℕ) (buf : List UInt8) (offset : ℕ)

def exec (r : Ramfs) : Op → Option Ramfs
  | .create path => some (ramfsCreate r path).2
  | .mkdir path => some (ramfsMkdir r path).2
  | .unlink path => some (ramfsUnlink r path).2
  | .rmdir path => some (ramfsRmdir r path).2
  | .write fd buf offset => (ramfsWrite r fd buf offset).map fun w => w.2.2

def Step (r : Ramfs) (op : Op) (r' : Ramfs) : Prop := exec r op = some r'

lemma init_sound (r : Ramfs) : Sound (ramfsInit r).inodes := by
  have hnot : ∀ i, UsedDir (ramfsInit r).inodes i → i = 0 := by
    intro i hi
    by_contra hne
    have hu := hi.2.1
    simp [ramfsInit, hne] at hu
  have hnil : ((ramfsInit r).inodes 0).entries = [] := rfl
  refine ⟨⟨by decide, rfl, rfl⟩, fun i hi e he => ?_, fun i hi => ?_, fun i j hi hj _ _ _ _ _ => ?_⟩
  · rw [hnot i hi, hnil] at he
    exact absurd he List.not_mem_nil
  · rw [hnot i hi, hnil]
    exact List.nodup_nil
  · rw [hnot i hi, hnot j hj]

lemma Sound.step {r r' : Ramfs} {o : Op} (h : Sound r.inodes) (hstep : Step r o r') :
    Sound r'.inodes := by
  cases o with
  | create path =>
    cases hstep
    rcases (create_cases h path).2 with ⟨_, he, _⟩ | ⟨p, idx, hen, _, he⟩
    · rw [he]
      exact h
    · rw [he]
      exact h.added .file _ hen.dir hen.free
  | mkdir path =>
    cases hstep
    rcases (mkdir_cases h path).2 with ⟨_, he, _⟩ | ⟨_, _, _, _, he⟩ | ⟨p, idx, hen, _, he⟩
    · rw [he]
      exact h
    · rw [he]
      exact h
    · rw [he]
      exact h.added .dir _ hen.dir hen.free
  | unlink path =>
    cases hstep
    rcases unlink_cases h path with ⟨_, he, _⟩ | ⟨p, e, hex, _, he, _⟩
    · rw [he]
      exact h
    · rw [he]
      exact h.removed hex.dir hex.entry (hex.ne h)
  | rmdir path =>
    cases hstep
    rcases (rmdir_cases h path).2 with ⟨_, he, _⟩ | ⟨p, e, hed, _, he⟩
    · rw [he]
      exact h
    · rw [he]
      exact h.removed hed.found.dir hed.found.entry (hed.found.ne h)
  | write fd buf offset =>
    obtain ⟨w, hw, rfl⟩ := Option.map_eq_some_iff.mp hstep
    exact (write_sameTree hw).sound h

/-- The root is a used directory, entries name used inodes, no two entries name the same one, and
no directory comes near the bound of its array. -/
structure InodeTable (r : Ramfs) : Prop where
  root : UsedDir r.inodes 0
  entry : ∀ i, UsedDir r.inodes i → ∀ e ∈ (r.inodes i).entries,
    1 ≤ e.inodeIdx ∧ e.inodeIdx < ramfsMaxFiles ∧ (r.inodes e.inodeIdx).used = true
  unique : ∀ i j, UsedDir r.inodes i → UsedDir r.inodes j → ∀ (k l : ℕ) (e f : RamfsDirent),
    (r.inodes i).entries[k]? = some e → (r.inodes j).entries[l]? = some f →
      e.inodeIdx = f.inodeIdx → i = j ∧ k = l
  length_le : ∀ i, UsedDir r.inodes i → (r.inodes i).entries.length ≤ 63
  room : ∀ path p, (ramfsFindInode r (splitPath path).1).1 = some p → (r.inodes p).type = .dir →
    (r.inodes p).entries.length < ramfsMaxEntries

lemma Sound.inodeTable {r : Ramfs} (h : Sound r.inodes) : InodeTable r where
  root := h.root
  entry := h.entry
  unique i j hi hj k l e f hk hl hef := by
    have hij := h.apart i j hi hj e (List.mem_of_getElem? hk) f (List.mem_of_getElem? hl) hef
    subst hij
    have hk' : ((r.inodes i).entries.map RamfsDirent.inodeIdx)[k]? = some e.inodeIdx := by
      rw [List.getElem?_map, hk]
      rfl
    have hl' : ((r.inodes i).entries.map RamfsDirent.inodeIdx)[l]? = some e.inodeIdx := by
      rw [List.getElem?_map, hl, hef]
      rfl
    have hlt := (List.getElem?_eq_some_iff.mp hk').1
    exact ⟨rfl, (List.getElem?_inj hlt (h.nodup i hi)).mp (hk'.trans hl'.symm)⟩
  length_le _ hi := h.length_le hi
  room path p hp hdir := by
    rw [findInode_eq h] at hp
    have hle := h.length_le (h.usedDir hp hdir)
    simp only [ramfsMaxEntries]
    omega

lemma run_sound {r s : Ramfs} {ops : List Op} (h : Run Step (ramfsInit r) ops s) : Sound s.inodes :=
  h.invariant (I := fun r => Sound r.inodes) (fun _ _ _ hr hstep => hr.step hstep) (init_sound r)

/-- The inode table after any run of operations on any paths. -/
theorem inode_table (r : Ramfs) {ops : List Op} {s : Ramfs} (h : Run Step (ramfsInit r) ops s) :
    InodeTable s :=
  (run_sound h).inodeTable

def zeroed : Ramfs where
  inodes _ := { emptyInode .file with used := false }
  heap := ⟨fun _ => none, 0, fun _ => none⟩
  strtokNext := none

theorem inode_table_unlinked :
    InodeTable (ramfsUnlink (ramfsCreate (ramfsMkdir (ramfsInit zeroed) (cstring "a")).2
      (cstring "a/b")).2 (cstring "a")).2 :=
  inode_table zeroed (show Run Step (ramfsInit zeroed)
      [.mkdir (cstring "a"), .create (cstring "a/b"), .unlink (cstring "a")] _ from
    .cons rfl (.cons rfl (.cons rfl (.nil _))))

end Veni.Filesystem.Ramfs
