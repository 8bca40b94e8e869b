import Veni.Filesystem.RamfsPaths
import Mathlib.Data.Set.Card

/-! The slots of the inode table against the paths that can be looked up. -/

namespace Veni.Filesystem.Ramfs

open Veni.Libc Veni.Lib.Tokens Veni.Lib.NameGraph Veni.Lib.Transition

def resolved (r : Ramfs) : Set Path := {p | (ramfsFindInode r p.str).1 ≠ none}

def usedSlots (inodes : ℕ → RamfsInode) : ℕ :=
  ((Finset.range ramfsMaxFiles).filter fun i => (inodes i).used = true).card

/-- Every used inode but the root has a path, and there are as many such inodes as paths. -/
structure NoneLost (r : Ramfs) : Prop where
  found : ∀ i < ramfsMaxFiles, (r.inodes i).used = true → i ≠ 0 →
    ∃ p : Path, (ramfsFindInode r p.str).1 = some i
  finite : (resolved r).Finite
  count : usedSlots r.inodes = 1 + (resolved r).ncard
  available : (∀ p : Path, (ramfsFindInode r p.str).1 = none) → freeSlots r.inodes = 63

def AllReached (inodes : ℕ → RamfsInode) : Prop := ∀ i, Live inodes i → Reached (links inodes) 0 i

lemma freeSlots_add_usedSlots (inodes : ℕ → RamfsInode) :
    freeSlots inodes + usedSlots inodes = ramfsMaxFiles := by
  have hsum := Finset.card_filter_add_card_filter_not (s := Finset.range ramfsMaxFiles)
    fun i => (inodes i).used = false
  simp only [Bool.not_eq_false, Finset.card_range] at hsum
  exact hsum

section Count

variable {r : Ramfs} (h : Tidy r.inodes)

include h

lemma Tidy.found_of_reached {i : ℕ} (hi : i ≠ 0) (hr : Reached (links r.inodes) 0 i) :
    ∃ p : Path, (ramfsFindInode r p.str).1 = some i := by
  obtain ⟨ns, hns⟩ := hr
  have hne : ns ≠ [] := by
    rintro rfl
    cases hns
    exact hi rfl
  obtain ⟨p, rfl⟩ := h.valid ns i hns hne
  exact ⟨p, by rw [find_str h.sound, hns]⟩

lemma Tidy.bijOn (hall : AllReached r.inodes) :
    Set.BijOn (fun p : Path => ((ramfsFindInode r p.str).1).getD 0) (resolved r)
      (((Finset.range ramfsMaxFiles).filter fun i => (r.inodes i).used = true).erase 0) := by
  have hfind : ∀ p ∈ resolved r,
      walk (links r.inodes) 0 p.components = some (((ramfsFindInode r p.str).1).getD 0) := by
    intro p hp
    obtain ⟨i, hi⟩ := Option.ne_none_iff_exists'.mp hp
    rw [← find_str h.sound, hi]
    rfl
  refine ⟨fun p hp => ?_, fun p hp q hq heq => ?_, fun i hi => ?_⟩
  · have hlive := h.sound.live_walk (hfind p hp)
    refine Finset.mem_coe.mpr (Finset.mem_erase.mpr ⟨fun hz => ?_, ?_⟩)
    · have hroot := (hfind p hp).trans (congrArg some hz)
      exact p.ne_nil (h.sound.tree.walk_injective hroot rfl)
    · exact Finset.mem_filter.mpr ⟨Finset.mem_range.mpr hlive.1, hlive.2⟩
  · have hcs := h.sound.tree.walk_injective (hfind p hp) ((hfind q hq).trans (congrArg some heq.symm))
    cases p
    cases q
    cases hcs
    rfl
  · obtain ⟨hne, hmem⟩ := Finset.mem_erase.mp (Finset.mem_coe.mp hi)
    obtain ⟨hlt, hu⟩ := Finset.mem_filter.mp hmem
    obtain ⟨p, hp⟩ := h.found_of_reached hne (hall i ⟨Finset.mem_range.mp hlt, hu⟩)
    refine ⟨p, ?_, ?_⟩
    · change (ramfsFindInode r p.str).1 ≠ none
      rw [hp]
      exact Option.some_ne_none i
    · simp only [hp]
      rfl

lemma Tidy.noneLost (hall : AllReached r.inodes) : NoneLost r := by
  have hroot : 0 ∈ (Finset.range ramfsMaxFiles).filter fun i => (r.inodes i).used = true :=
    Finset.mem_filter.mpr ⟨Finset.mem_range.mpr h.sound.root.1, h.sound.root.2.1⟩
  have hcount : usedSlots r.inodes = 1 + (resolved r).ncard := by
    rw [(h.bijOn hall).ncard_eq, Set.ncard_coe_finset, Finset.card_erase_of_mem hroot, usedSlots]
    have := Finset.card_pos.mpr ⟨0, hroot⟩
    omega
  refine ⟨fun i hi hu hne => h.found_of_reached hne (hall i ⟨hi, hu⟩),
    (h.bijOn hall).finite_iff_finite.mpr (Finset.finite_toSet _), hcount, fun hnone => ?_⟩
  have hempty : resolved r = ∅ := Set.eq_empty_of_forall_notMem fun p hp => hp (hnone p)
  rw [hempty, Set.ncard_empty] at hcount
  have hsum := freeSlots_add_usedSlots r.inodes
  rw [hcount, ramfsMaxFiles] at hsum
  omega

lemma Tidy.noneLost_iff : NoneLost r ↔ AllReached r.inodes := by
  refine ⟨fun hlost i hi => ?_, h.noneLost⟩
  by_cases hz : i = 0
  · rw [hz]
    exact .refl _ _
  · obtain ⟨p, hp⟩ := hlost.found i hi.1 hi.2 hz
    exact ⟨p.components, by rw [← find_str h.sound, hp]⟩

end Count

lemma live_added {inodes : ℕ → RamfsInode} {p idx : ℕ} (type : InodeType) (basename : CString)
    (hp : UsedDir inodes p) (hf : FirstFree inodes idx) (i : ℕ) :
    Live (added inodes type p basename idx) i ↔ Live inodes i ∨ i = idx := by
  have hu := used_added type basename hp hf i
  rw [← Bool.not_eq_true, ← Bool.not_eq_true] at hu
  by_cases hi : i = idx
  · subst hi
    simp only [Live, hf.1]
    tauto
  · simp only [Live]
    tauto

lemma live_removed {inodes : ℕ → RamfsInode} {p idx : ℕ} (basename : CString) (hne : idx ≠ p) (i : ℕ) :
    Live (removed inodes p basename idx) i ↔ Live inodes i ∧ i ≠ idx := by
  by_cases hi : i = idx
  · simp [Live, hi, removed_self hne]
  · by_cases hip : i = p
    · subst hip
      simp [Live, removed_parent hne, hi]
    · simp [Live, removed_of_ne hi hip, hi]

section Operations

variable {r : Ramfs} {p : Path} {i : ℕ}

lemma AllReached.added {idx : ℕ} (h : Tidy r.inodes) (hall : AllReached r.inodes)
    (he : Enters r.inodes p.str i idx) (type : InodeType) :
    AllReached (Ramfs.added r.inodes type i p.name idx) := by
  intro j hj
  rcases (live_added type p.name he.dir he.free j).mp hj with hlive | rfl
  · obtain ⟨ns, hns⟩ := hall j hlive
    have hne : ns ≠ p.components := by
      rintro rfl
      have hnone := ((enters_iff h.sound p).mp ⟨i, idx, he⟩).2.1
      rw [view_eq h.sound, hns] at hnone
      cases hnone
    exact ⟨ns, by rw [h.sound.walk_added he, if_neg hne, hns]⟩
  · exact ⟨p.components, by rw [h.sound.walk_added he, if_pos rfl]⟩

lemma AllReached.removed_iff {e : RamfsDirent} (h : Tidy r.inodes) (hall : AllReached r.inodes)
    (he : Exists r.inodes p.str i e) :
    AllReached (Ramfs.removed r.inodes i p.name e.inodeIdx) ↔ links r.inodes e.inodeIdx = [] := by
  have hne := he.ne h.sound
  have hp : Reached (links r.inodes) 0 i := ⟨_, he.parent⟩
  have ht := he.target
  rw [p.splitPath_str] at ht
  have hcut := h.sound.tree.reached_cut hp ht (h.names i)
  rw [← links_removed he.dir hne] at hcut
  constructor
  · intro hafter
    by_contra hlinks
    obtain ⟨⟨n, k⟩, hk⟩ := List.exists_mem_of_ne_nil _ hlinks
    have hkt := target_of_mem (h.names _) hk
    have hke := h.sound.tree.ne_of_reached (hp.trans (.of_target ht)) hkt (.refl _ _)
    have hidx : Live r.inodes e.inodeIdx := (h.sound.entry i he.dir e (mem_of_findEntry he.entry).1).2
    have hlive := (live_removed p.name hne k).mpr ⟨h.sound.live_link _ _ _ hidx hk, hke⟩
    exact ((hcut k).mp (hafter k hlive)).2 (.of_target hkt)
  · intro hlinks j hj
    obtain ⟨hlive, hji⟩ := (live_removed p.name hne j).mp hj
    exact (hcut j).mpr ⟨hall j hlive, fun hr => hji (reached_of_nil hlinks hr)⟩

/-- The operation removes no directory that has entries. -/
def KeepsSubtrees (r : Ramfs) : PathOp → Prop
  | .unlink p => ∀ i, view r p = some (i, .dir) → (r.inodes i).entries = []
  | _ => True

lemma AllReached.unlink_iff (h : Tidy r.inodes) (hall : AllReached r.inodes) :
    AllReached (ramfsUnlink r p.str).2.inodes ↔ KeepsSubtrees r (.unlink p) := by
  simp only [KeepsSubtrees]
  rcases unlink_cases h.sound p.str with ⟨_, hs, _, hno⟩ | ⟨i, e, he, _, hs, _⟩
  · rw [hs]
    refine iff_of_true hall fun j hj => ?_
    obtain ⟨k, e, he⟩ := (exists_iff h.sound p).mpr (by rw [hj]; simp)
    exact absurd he (hno k e)
  · rw [p.splitPath_str] at hs
    rw [hs, hall.removed_iff h he]
    have ht := he.target
    have hparent := he.parent
    rw [p.splitPath_str] at ht
    rw [parentOf_str] at hparent
    have hview : view r p = some (e.inodeIdx, (r.inodes e.inodeIdx).type) := by
      rw [view_eq h.sound, ← p.parent_append_name, walk_concat, hparent, Option.bind_some, ht]
      rfl
    have hlive := h.sound.entry i he.dir e (mem_of_findEntry he.entry).1
    constructor
    · intro hlinks j hj
      simp only [hview, Option.some.injEq, Prod.mk.injEq] at hj
      obtain ⟨rfl, hdir⟩ := hj
      have hd : UsedDir r.inodes e.inodeIdx := ⟨hlive.2.1, hlive.2.2, hdir⟩
      rwa [links_of_usedDir hd, List.map_eq_nil_iff] at hlinks
    · intro hdir
      by_cases hd : UsedDir r.inodes e.inodeIdx
      · rw [links_of_usedDir hd, hdir e.inodeIdx (by rw [hview, hd.2.2])]
        rfl
      · rw [links, if_neg hd]

lemma AllReached.rmdir (h : Tidy r.inodes) (hall : AllReached r.inodes) :
    AllReached (ramfsRmdir r p.str).2.inodes := by
  rcases (rmdir_cases h.sound p.str).2 with ⟨_, hs, _⟩ | ⟨i, e, he, _, hs⟩
  · rw [hs]
    exact hall
  · rw [p.splitPath_str] at hs
    rw [hs, hall.removed_iff h he.found, links_of_usedDir he.dir, he.empty]
    rfl

lemma AllReached.create (h : Tidy r.inodes) (hall : AllReached r.inodes) :
    AllReached (ramfsCreate r p.str).2.inodes := by
  rcases (create_cases h.sound p.str).2 with ⟨_, hs, _⟩ | ⟨i, idx, he, _, hs⟩
  · rw [hs]
    exact hall
  · rw [p.splitPath_str] at hs
    rw [hs]
    exact hall.added h he .file

lemma AllReached.mkdir (h : Tidy r.inodes) (hall : AllReached r.inodes) :
    AllReached (ramfsMkdir r p.str).2.inodes := by
  rcases (mkdir_cases h.sound p.str).2 with ⟨_, hs, _⟩ | ⟨_, _, _, _, hs⟩ | ⟨i, idx, he, _, hs⟩
  · rw [hs]
    exact hall
  · rw [hs]
    exact hall
  · rw [p.splitPath_str] at hs
    rw [hs]
    exact hall.added h he .dir

end Operations

lemma AllReached.step_iff {r s : Ramfs} {o : PathOp} (h : Tidy r.inodes) (hall : AllReached r.inodes)
    (hs : PathStep r o s) : AllReached s.inodes ↔ KeepsSubtrees r o := by
  cases o with
  | create p =>
    cases hs
    exact iff_of_true (hall.create h) trivial
  | mkdir p =>
    cases hs
    exact iff_of_true (hall.mkdir h) trivial
  | unlink p =>
    cases hs
    exact hall.unlink_iff h
  | rmdir p =>
    cases hs
    exact iff_of_true (hall.rmdir h) trivial

lemma init_allReached (r : Ramfs) : AllReached (ramfsInit r).inodes := by
  intro i hi
  by_cases hz : i = 0
  · rw [hz]
    exact .refl _ _
  · have hu := hi.2
    simp [ramfsInit, hz] at hu

/-- No inode is lost after any operation of a run if and only if none removes a directory that has
entries. -/
theorem none_lost_iff (r : Ramfs) (ops : List PathOp) :
    NoneLost (ramfsInit r) ∧
      (Along PathStep (fun _ _ s => NoneLost s) (ramfsInit r) ops ↔
        Along PathStep (fun r o _ => KeepsSubtrees r o) (ramfsInit r) ops) := by
  refine ⟨(init_tidy r).noneLost (init_allReached r), ?_⟩
  refine along_iff (I := fun r => Tidy r.inodes ∧ AllReached r.inodes) (H := fun _ _ _ => True)
    (fun r o s hr hstep _ => ?_) (fun r o s hr hstep _ hkeeps => ?_)
    ⟨init_tidy r, init_allReached r⟩ (along_true _ _)
  · rw [(hr.1.step hstep).noneLost_iff]
    exact hr.2.step_iff hr.1 hstep
  · exact ⟨hr.1.step hstep, (hr.2.step_iff hr.1 hstep).mpr hkeeps⟩

theorem unlink_loses_file :
    ∃ s, Run PathStep (ramfsInit zeroed)
        [.mkdir ⟨[cstring "a"], by decide, by decide, by decide⟩,
          .create ⟨[cstring "a", cstring "b"], by decide, by decide, by decide⟩,
          .unlink ⟨[cstring "a"], by decide, by decide, by decide⟩] s ∧
      (∀ p : Path, (ramfsFindInode s p.str).1 = none) ∧ usedSlots s.inodes = 2 ∧ ¬ NoneLost s := by
  have hrun : Run PathStep (ramfsInit zeroed)
      [.mkdir ⟨[cstring "a"], by decide, by decide, by decide⟩,
        .create ⟨[cstring "a", cstring "b"], by decide, by decide, by decide⟩,
        .unlink ⟨[cstring "a"], by decide, by decide, by decide⟩]
      (ramfsUnlink (ramfsCreate (ramfsMkdir (ramfsInit zeroed) (cstring "a")).2 (cstring "a/b")).2
        (cstring "a")).2 :=
    .cons rfl (.cons rfl (.cons rfl (.nil _)))
  refine ⟨_, hrun, ?_⟩
  have hs := hrun.invariant (I := fun r => Tidy r.inodes) (fun _ _ _ hr hstep => hr.step hstep)
    (init_tidy zeroed)
  have hlinks : links (ramfsUnlink (ramfsCreate (ramfsMkdir (ramfsInit zeroed) (cstring "a")).2
      (cstring "a/b")).2 (cstring "a")).2.inodes 0 = [] := by
    rw [links_of_usedDir hs.sound.root]
    rfl
  have hnone : ∀ p : Path, (ramfsFindInode (ramfsUnlink (ramfsCreate (ramfsMkdir (ramfsInit zeroed)
      (cstring "a")).2 (cstring "a/b")).2 (cstring "a")).2 p.str).1 = none := by
    intro p
    rw [find_str hs.sound, walk_of_nil hlinks p.ne_nil]
  refine ⟨hnone, by decide, fun hlost => ?_⟩
  have hfree := hlost.available hnone
  revert hfree
  decide

end Veni.Filesystem.Ramfs
