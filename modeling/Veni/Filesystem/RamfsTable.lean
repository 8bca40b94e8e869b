import Veni.Filesystem.Ramfs
import Veni.Lib.NameGraph
import Mathlib.Data.Finset.Card
import Mathlib.Order.Interval.Finset.Nat

/-! The inode table as a tree of links, and how a new or a removed entry changes it. -/

namespace Veni.Filesystem.Ramfs

open Veni.Libc Veni.Lib.Tokens Veni.Lib.NameGraph

def UsedDir (inodes : ℕ → RamfsInode) (i : ℕ) : Prop :=
  i < ramfsMaxFiles ∧ (inodes i).used = true ∧ (inodes i).type = .dir

instance (inodes : ℕ → RamfsInode) (i : ℕ) : Decidable (UsedDir inodes i) :=
  inferInstanceAs (Decidable (_ ∧ _ ∧ _))

structure Sound (inodes : ℕ → RamfsInode) : Prop where
  root : UsedDir inodes 0
  entry : ∀ i, UsedDir inodes i → ∀ e ∈ (inodes i).entries,
    1 ≤ e.inodeIdx ∧ e.inodeIdx < ramfsMaxFiles ∧ (inodes e.inodeIdx).used = true
  nodup : ∀ i, UsedDir inodes i → ((inodes i).entries.map RamfsDirent.inodeIdx).Nodup
  apart : ∀ i j, UsedDir inodes i → UsedDir inodes j → ∀ e ∈ (inodes i).entries,
    ∀ f ∈ (inodes j).entries, e.inodeIdx = f.inodeIdx → i = j

def links (inodes : ℕ → RamfsInode) (i : ℕ) : List (CString × ℕ) :=
  if UsedDir inodes i then (inodes i).entries.map fun e => (e.name.val, e.inodeIdx) else []

lemma links_of_usedDir {inodes : ℕ → RamfsInode} {i : ℕ} (h : UsedDir inodes i) :
    links inodes i = (inodes i).entries.map fun e => (e.name.val, e.inodeIdx) := by
  rw [links, if_pos h]

lemma target_links {inodes : ℕ → RamfsInode} {i : ℕ} (h : UsedDir inodes i) (n : CString) :
    target (links inodes i) n = (findEntry (inodes i).entries n).map RamfsDirent.inodeIdx := by
  rw [links_of_usedDir h, target, findEntry, List.find?_map, Option.map_map]
  rfl

lemma mem_links {inodes : ℕ → RamfsInode} {i j : ℕ} {n : CString} :
    (n, j) ∈ links inodes i ↔
      UsedDir inodes i ∧ ∃ e ∈ (inodes i).entries, e.name.val = n ∧ e.inodeIdx = j := by
  by_cases h : UsedDir inodes i
  · simp [links_of_usedDir h, h]
  · simp [links, h]

def Live (inodes : ℕ → RamfsInode) (i : ℕ) : Prop := i < ramfsMaxFiles ∧ (inodes i).used = true

section Sound

variable {inodes : ℕ → RamfsInode} (h : Sound inodes)

include h

lemma Sound.live_root : Live inodes 0 := ⟨h.root.1, h.root.2.1⟩

lemma Sound.live_link (i : ℕ) (n : CString) (j : ℕ) (_ : Live inodes i)
    (hj : (n, j) ∈ links inodes i) : Live inodes j := by
  obtain ⟨hi, e, he, _, rfl⟩ := mem_links.mp hj
  exact ⟨(h.entry i hi e he).2.1, (h.entry i hi e he).2.2⟩

lemma Sound.live_walk {ns : List CString} {j : ℕ} (hw : walk (links inodes) 0 ns = some j) :
    Live inodes j :=
  walk_invariant h.live_link h.live_root hw

lemma Sound.tree : Tree (links inodes) 0 where
  unique i i' n n' j hi hi' := by
    obtain ⟨hd, e, he, rfl, rfl⟩ := mem_links.mp hi
    obtain ⟨hd', f, hf, rfl, hfe⟩ := mem_links.mp hi'
    have hii := h.apart i i' hd hd' e he f hf hfe.symm
    subst hii
    have hef := List.inj_on_of_nodup_map (h.nodup i hd) he hf hfe.symm
    exact ⟨rfl, by rw [hef]⟩
  root i n hi := by
    obtain ⟨hd, e, he, _, hz⟩ := mem_links.mp hi
    have := (h.entry i hd e he).1
    omega

lemma Sound.length_le {i : ℕ} (hd : UsedDir inodes i) : (inodes i).entries.length ≤ 63 := by
  have hsub : ((inodes i).entries.map RamfsDirent.inodeIdx).toFinset ⊆ Finset.Ico 1 64 := by
    intro j hj
    obtain ⟨e, he, rfl⟩ := List.mem_map.mp (List.mem_toFinset.mp hj)
    exact Finset.mem_Ico.mpr ⟨(h.entry i hd e he).1, (h.entry i hd e he).2.1⟩
  have hcard := Finset.card_le_card hsub
  rwa [List.toFinset_card_of_nodup (h.nodup i hd), List.length_map, Nat.card_Ico] at hcard

lemma Sound.findLoop_eq {n current : ℕ} {rest : CString} (hc : Live inodes current)
    (hn : (tokens isSlash rest).length < n) :
    (findLoop inodes n current rest).1 = walk (links inodes) current (tokens isSlash rest) := by
  induction n generalizing current rest with
  | zero => omega
  | succ n ih =>
    simp only [findLoop]
    cases ht : tokens isSlash rest with
    | nil => simp [tokenStep_of_nil ht]
    | cons t ts =>
      obtain ⟨rest', hs, hrest⟩ := tokenStep_of_cons ht
      rw [hs, walk_cons]
      by_cases hdir : (inodes current).type = .dir
      · have hused : UsedDir inodes current := ⟨hc.1, hc.2, hdir⟩
        rw [target_links hused]
        simp only [hdir, if_true]
        cases hf : findEntry (inodes current).entries t with
        | none => rfl
        | some e =>
          have hmem : e ∈ (inodes current).entries := List.mem_of_find?_eq_some hf
          have hlive := h.entry current hused e hmem
          rw [ht, List.length_cons] at hn
          simp only [Option.map_some, Option.bind_some, ← hrest]
          exact ih hlive.2 (by rw [hrest]; omega)
      · have hnot : ¬ UsedDir inodes current := fun hu => hdir hu.2.2
        simp [hdir, links, hnot]

end Sound

def components (path : CString) : List CString := tokens isSlash (path.take 255)

lemma findInode_inodes (r : Ramfs) (path : CString) :
    (ramfsFindInode r path).2.inodes = r.inodes ∧ (ramfsFindInode r path).2.heap = r.heap := by
  unfold ramfsFindInode
  split
  · exact ⟨rfl, rfl⟩
  · exact ⟨rfl, rfl⟩

lemma findInode_eq {r : Ramfs} (h : Sound r.inodes) (path : CString) :
    (ramfsFindInode r path).1 = walk (links r.inodes) 0 (components path) := by
  unfold ramfsFindInode
  by_cases hp : path = []
  · simp [hp, components]
  · rw [if_neg hp]
    exact h.findLoop_eq h.live_root (Nat.lt_succ_of_le (length_tokens_le isSlash _))

lemma splitPath_cases (path : CString) :
    ((∀ c ∈ path.take 255, isSlash c = false) ∧ splitPath path = ([], path.take 255)) ∨
      ∃ d, isSlash d = true ∧ path.take 255 = (splitPath path).1 ++ d :: (splitPath path).2 ∧
        ∀ c ∈ (splitPath path).2, isSlash c = false := by
  have heq : splitPath path = (splitLast isSlash (path.take 255)).getD ([], path.take 255) := rfl
  cases hs : splitLast isSlash (path.take 255) with
  | none =>
    rw [hs] at heq
    exact .inl ⟨(splitLast_eq_none isSlash).mp hs, heq⟩
  | some ab =>
    rw [hs] at heq
    obtain ⟨d, hd, he, hb⟩ := splitLast_eq_some isSlash hs
    exact .inr ⟨d, hd, by rw [heq]; exact he, by rw [heq]; exact hb⟩

lemma splitPath_dirname (path : CString) : (splitPath path).1.take 255 = (splitPath path).1 := by
  have hlen : (path.take 255).length ≤ 255 := List.length_take_le 255 path
  rcases splitPath_cases path with ⟨_, he⟩ | ⟨d, _, he, _⟩
  · rw [he]
    rfl
  · rw [he, List.length_append] at hlen
    exact List.take_of_length_le (by omega)

lemma length_dirname (path : CString) : (splitPath path).1.length < 255 := by
  have hlen : (path.take 255).length ≤ 255 := List.length_take_le 255 path
  rcases splitPath_cases path with ⟨_, he⟩ | ⟨d, _, he, _⟩
  · rw [he]
    exact Nat.zero_lt_succ _
  · rw [he, List.length_append, List.length_cons] at hlen
    omega

lemma splitPath_basename (path : CString) : ∀ c ∈ (splitPath path).2, isSlash c = false := by
  rcases splitPath_cases path with ⟨hall, he⟩ | ⟨d, _, _, hb⟩
  · rw [he]
    exact hall
  · exact hb

lemma components_split (path : CString) :
    components path = components (splitPath path).1 ++ tokens isSlash (splitPath path).2 := by
  rw [components, components, splitPath_dirname]
  rcases splitPath_cases path with ⟨_, he⟩ | ⟨d, hd, he, _⟩
  · rw [he]
    rfl
  · conv_lhs => rw [he]
    exact tokens_append_delim isSlash hd _ _

lemma tokens_basename {path : CString} (h : (splitPath path).2 ≠ []) :
    tokens isSlash (splitPath path).2 = [(splitPath path).2] :=
  tokens_word isSlash ⟨h, splitPath_basename path⟩

lemma components_join {cs : List CString} (hw : ∀ c ∈ cs, IsWord isSlash c)
    (hlen : (join slash cs).length ≤ 255) : components (join slash cs) = cs := by
  rw [components, List.take_of_length_le hlen]
  exact tokens_join isSlash (by decide) hw

lemma splitPath_join {cs : List CString} {t : CString} (ht : IsWord isSlash t)
    (hlen : (join slash (cs ++ [t])).length ≤ 255) :
    splitPath (join slash (cs ++ [t])) = (join slash cs, t) := by
  simp only [splitPath, strncpy, strrchr, List.take_of_length_le hlen]
  by_cases h : cs = []
  · rw [h, List.nil_append, join_singleton, (splitLast_eq_none isSlash).mpr ht.2]
    rfl
  · rw [join_concat slash h, splitLast_append isSlash (by decide) ht.2]
    rfl

def parentOf (inodes : ℕ → RamfsInode) (path : CString) : Option ℕ :=
  walk (links inodes) 0 (components (splitPath path).1)

def FirstFree (inodes : ℕ → RamfsInode) (idx : ℕ) : Prop :=
  idx < ramfsMaxFiles ∧ (inodes idx).used = false ∧ ∀ j < idx, (inodes j).used = true

lemma allocInode_cases (r : Ramfs) :
    ((∀ i < ramfsMaxFiles, (r.inodes i).used = true) ∧ allocInode r = none) ∨
      ∃ idx, FirstFree r.inodes idx ∧
        allocInode r = some (idx, r.setInode idx (emptyInode .file)) := by
  unfold allocInode
  cases hf : (List.range ramfsMaxFiles).find? fun i => !(r.inodes i).used with
  | none =>
    refine .inl ⟨fun i hi => ?_, rfl⟩
    simpa using List.find?_eq_none.mp hf i (List.mem_range.mpr hi)
  | some idx =>
    obtain ⟨hi, hmem, hlow⟩ := List.find?_range_eq_some.mp hf
    exact .inr ⟨idx, ⟨List.mem_range.mp hmem, by simpa using hi, fun j hj => by simpa using hlow j hj⟩,
      rfl⟩

def added (inodes : ℕ → RamfsInode) (type : InodeType) (parentIdx : ℕ) (basename : CString)
    (idx : ℕ) : ℕ → RamfsInode :=
  let inodes := Function.update inodes idx (emptyInode type)
  Function.update inodes parentIdx
    { inodes parentIdx with entries := (inodes parentIdx).entries ++ [⟨strncpy 31 basename, idx⟩] }

def removed (inodes : ℕ → RamfsInode) (parentIdx : ℕ) (basename : CString) (idx : ℕ) :
    ℕ → RamfsInode :=
  let inodes := Function.update inodes parentIdx
    { inodes parentIdx with
      entries := (inodes parentIdx).entries.eraseP fun e => decide (e.name.val = basename) }
  Function.update inodes idx { inodes idx with used := false }

def freeSlots (inodes : ℕ → RamfsInode) : ℕ :=
  ((Finset.range ramfsMaxFiles).filter fun i => (inodes i).used = false).card

def NthFree (inodes : ℕ → RamfsInode) (k idx : ℕ) : Prop :=
  idx < ramfsMaxFiles ∧ (inodes idx).used = false ∧
    ((Finset.range idx).filter fun i => (inodes i).used = false).card = k

lemma FirstFree.nthFree {inodes : ℕ → RamfsInode} {idx : ℕ} (h : FirstFree inodes idx) :
    NthFree inodes 0 idx := by
  refine ⟨h.1, h.2.1, Finset.card_eq_zero.mpr (Finset.filter_eq_empty_iff.mpr fun i hi => ?_)⟩
  rw [h.2.2 i (Finset.mem_range.mp hi)]
  simp

section Links

variable {inodes : ℕ → RamfsInode} {parentIdx idx : ℕ} {basename : CString}

lemma added_self (type : InodeType) (hne : idx ≠ parentIdx) :
    added inodes type parentIdx basename idx idx = emptyInode type := by
  simp [added, hne]

lemma added_parent (type : InodeType) (hne : idx ≠ parentIdx) :
    added inodes type parentIdx basename idx parentIdx =
      { inodes parentIdx with
        entries := (inodes parentIdx).entries ++ [⟨strncpy 31 basename, idx⟩] } := by
  simp [added, hne.symm]

lemma added_of_ne (type : InodeType) {i : ℕ} (hi : i ≠ idx) (hp : i ≠ parentIdx) :
    added inodes type parentIdx basename idx i = inodes i := by
  simp [added, hi, hp]

lemma usedDir_added {type : InodeType} {i : ℕ} (hp : UsedDir inodes parentIdx)
    (hidx : idx < ramfsMaxFiles) (hne : idx ≠ parentIdx) :
    UsedDir (added inodes type parentIdx basename idx) i ↔
      UsedDir inodes i ∧ i ≠ idx ∨ i = idx ∧ type = .dir := by
  by_cases hi : i = idx
  · subst hi
    simp [UsedDir, added_self type hne, emptyInode, hidx]
  · by_cases hip : i = parentIdx
    · subst hip
      simp only [UsedDir, added_parent type hne, hi, ne_eq, not_false_eq_true, and_true, false_and,
        or_false]
    · simp [UsedDir, added_of_ne type hi hip, hi]

lemma links_added (type : InodeType) (hp : UsedDir inodes parentIdx)
    (hfree : (inodes idx).used = false) (hidx : idx < ramfsMaxFiles) :
    links (added inodes type parentIdx basename idx) =
      link (links inodes) parentIdx (basename.take 31) idx := by
  have hne : idx ≠ parentIdx := by
    rintro rfl
    rw [hp.2.1] at hfree
    cases hfree
  funext i
  by_cases hi : i = idx
  · subst hi
    have hnot : ¬ UsedDir inodes i := fun hu => by simp [hu.2.1] at hfree
    rw [link_of_ne hne, links, links, if_neg hnot, added_self type hne]
    simp [emptyInode]
  · by_cases hip : i = parentIdx
    · subst hip
      have hu : UsedDir (added inodes type i basename idx) i :=
        (usedDir_added hp hidx hne).mpr (.inl ⟨hp, hi⟩)
      rw [link_self, links_of_usedDir hu, links_of_usedDir hp, added_parent type hne]
      simp [strncpy]
    · have hu : UsedDir (added inodes type parentIdx basename idx) i ↔ UsedDir inodes i := by
        simp only [UsedDir, added_of_ne type hi hip]
      simp only [link_of_ne hip, links, hu, added_of_ne type hi hip]

lemma removed_self (hne : idx ≠ parentIdx) :
    removed inodes parentIdx basename idx idx = { inodes idx with used := false } := by
  simp [removed, hne]

lemma removed_of_ne {i : ℕ} (hi : i ≠ idx) (hp : i ≠ parentIdx) :
    removed inodes parentIdx basename idx i = inodes i := by
  simp [removed, hi, hp]

lemma removed_parent (hne : idx ≠ parentIdx) :
    removed inodes parentIdx basename idx parentIdx =
      { inodes parentIdx with
        entries := (inodes parentIdx).entries.eraseP fun e => decide (e.name.val = basename) } := by
  simp [removed, hne.symm]

lemma usedDir_removed {i : ℕ} (hne : idx ≠ parentIdx) :
    UsedDir (removed inodes parentIdx basename idx) i ↔ UsedDir inodes i ∧ i ≠ idx := by
  by_cases hi : i = idx
  · subst hi
    simp [UsedDir, removed_self hne]
  · by_cases hip : i = parentIdx
    · subst hip
      simp only [UsedDir, removed_parent hne, hi, ne_eq, not_false_eq_true, and_true]
    · simp [UsedDir, removed_of_ne hi hip, hi]

lemma links_removed (hp : UsedDir inodes parentIdx) (hne : idx ≠ parentIdx) :
    links (removed inodes parentIdx basename idx) = cut (links inodes) parentIdx basename idx := by
  funext i
  unfold cut
  by_cases hi : i = idx
  · have hnot : ¬ UsedDir (removed inodes parentIdx basename idx) i := by
      rw [usedDir_removed hne]
      exact fun h => h.2 hi
    rw [if_pos hi, links, if_neg hnot]
  · rw [if_neg hi]
    by_cases hip : i = parentIdx
    · subst hip
      rw [if_pos rfl, links_of_usedDir ((usedDir_removed hne).mpr ⟨hp, hi⟩), links_of_usedDir hp,
        removed_parent hne, List.eraseP_map]
      rfl
    · have hu : UsedDir (removed inodes parentIdx basename idx) i ↔ UsedDir inodes i := by
        simp only [UsedDir, removed_of_ne hi hip]
      simp only [if_neg hip, links, hu, removed_of_ne hi hip]

end Links

lemma FirstFree.ne {inodes : ℕ → RamfsInode} {parentIdx idx : ℕ} (hf : FirstFree inodes idx)
    (hp : UsedDir inodes parentIdx) : idx ≠ parentIdx := by
  rintro rfl
  have hused := hp.2.1
  rw [hf.2.1] at hused
  cases hused

lemma Sound.idx_ne_free {inodes : ℕ → RamfsInode} (h : Sound inodes) {i idx : ℕ}
    (hd : UsedDir inodes i) (hf : FirstFree inodes idx) {e : RamfsDirent}
    (he : e ∈ (inodes i).entries) : e.inodeIdx ≠ idx := by
  rintro rfl
  have hused := (h.entry i hd e he).2.2
  rw [hf.2.1] at hused
  cases hused

section Added

variable {inodes : ℕ → RamfsInode} {parentIdx idx i : ℕ} (type : InodeType) (basename : CString)
  (hp : UsedDir inodes parentIdx) (hf : FirstFree inodes idx)
include hp hf

lemma used_added (i : ℕ) :
    (added inodes type parentIdx basename idx i).used = false ↔ (inodes i).used = false ∧ i ≠ idx := by
  by_cases hi : i = idx
  · subst hi
    simp [added_self type (hf.ne hp), emptyInode]
  · by_cases hip : i = parentIdx
    · subst hip
      simp [added_parent type (hf.ne hp), hi]
    · simp [added_of_ne type hi hip, hi]

lemma added_used {j : ℕ} (hj : (inodes j).used = true ∨ j = idx) :
    (added inodes type parentIdx basename idx j).used = true := by
  by_contra hfree
  rw [Bool.not_eq_true, used_added type basename hp hf] at hfree
  rcases hj with hu | hidx
  · rw [hfree.1] at hu
    cases hu
  · exact hfree.2 hidx

lemma entries_added (hi : UsedDir (added inodes type parentIdx basename idx) i) :
    (added inodes type parentIdx basename idx i).entries = [] ∨ UsedDir inodes i ∧
      (added inodes type parentIdx basename idx i).entries =
        (inodes i).entries ++ if i = parentIdx then [⟨strncpy 31 basename, idx⟩] else [] := by
  have hne := hf.ne hp
  rcases (usedDir_added hp hf.1 hne).mp hi with ⟨hd, hii⟩ | ⟨rfl, _⟩
  · right
    by_cases hip : i = parentIdx
    · subst hip
      simp [added_parent type hne, hd]
    · simp [added_of_ne type hii hip, hip, hd]
  · left
    rw [added_self type hne]
    rfl

lemma mem_entries_added (hi : UsedDir (added inodes type parentIdx basename idx) i) {e : RamfsDirent}
    (he : e ∈ (added inodes type parentIdx basename idx i).entries) :
    (UsedDir inodes i ∧ e ∈ (inodes i).entries) ∨ (i = parentIdx ∧ e.inodeIdx = idx) := by
  rcases entries_added type basename hp hf hi with hnil | ⟨hd, heq⟩
  · simp [hnil] at he
  · rw [heq, List.mem_append] at he
    rcases he with he | he
    · exact .inl ⟨hd, he⟩
    · split at he
      · next hip =>
        rw [List.mem_singleton.mp he]
        exact .inr ⟨hip, rfl⟩
      · simp at he

end Added

lemma Sound.added {inodes : ℕ → RamfsInode} (h : Sound inodes) {parentIdx idx : ℕ}
    (type : InodeType) (basename : CString) (hp : UsedDir inodes parentIdx)
    (hf : FirstFree inodes idx) : Sound (added inodes type parentIdx basename idx) := by
  have hne := hf.ne hp
  refine ⟨(usedDir_added hp hf.1 hne).mpr (.inl ⟨h.root, fun hz => ?_⟩), fun i hi e he => ?_,
    fun i hi => ?_, fun i j hi hj e he f hfj hef => ?_⟩
  · have hroot := h.root.2.1
    rw [hz, hf.2.1] at hroot
    cases hroot
  · rcases mem_entries_added type basename hp hf hi he with ⟨hd, he⟩ | ⟨_, he⟩
    · obtain ⟨hlo, hhi, hu⟩ := h.entry i hd e he
      exact ⟨hlo, hhi, added_used type basename hp hf (.inl hu)⟩
    · have hpos : idx ≠ 0 := by
        rintro rfl
        have hroot := h.root.2.1
        rw [hf.2.1] at hroot
        cases hroot
      rw [he]
      exact ⟨Nat.one_le_iff_ne_zero.mpr hpos, hf.1, added_used type basename hp hf (.inr rfl)⟩
  · rcases entries_added type basename hp hf hi with hnil | ⟨hd, heq⟩
    · rw [hnil]
      exact List.nodup_nil
    · rw [heq, List.map_append]
      split
      · apply (h.nodup i hd).append (List.nodup_singleton idx)
        intro k hk hki
        obtain ⟨e, he, rfl⟩ := List.mem_map.mp hk
        exact h.idx_ne_free hd hf he (List.mem_singleton.mp hki)
      · simpa using h.nodup i hd
  · rcases mem_entries_added type basename hp hf hi he with ⟨hd, he'⟩ | ⟨hip, he'⟩
    · rcases mem_entries_added type basename hp hf hj hfj with ⟨hd', hf'⟩ | ⟨_, hf'⟩
      · exact h.apart i j hd hd' e he' f hf' hef
      · exact absurd (hef.trans hf') (h.idx_ne_free hd hf he')
    · rcases mem_entries_added type basename hp hf hj hfj with ⟨hd', hf'⟩ | ⟨hjp, _⟩
      · exact absurd (hef.symm.trans he') (h.idx_ne_free hd' hf hf')
      · rw [hip, hjp]

lemma mem_of_findEntry {es : List RamfsDirent} {n : CString} {e : RamfsDirent}
    (h : findEntry es n = some e) : e ∈ es ∧ e.name.val = n :=
  ⟨List.mem_of_find?_eq_some h, by simpa using List.find?_some h⟩

lemma not_mem_erase {es : List RamfsDirent} (hn : (es.map RamfsDirent.inodeIdx).Nodup) {n : CString}
    {e : RamfsDirent} (he : findEntry es n = some e) {f : RamfsDirent}
    (hf : f ∈ es.eraseP fun e => decide (e.name.val = n)) : f.inodeIdx ≠ e.inodeIdx := by
  induction es with
  | nil => simp at hf
  | cons d es ih =>
    rw [List.map_cons, List.nodup_cons] at hn
    by_cases hd : d.name.val = n
    · rw [findEntry, List.find?_cons_of_pos (by simpa using hd)] at he
      cases he
      rw [List.eraseP_cons_of_pos (by simpa using hd)] at hf
      exact fun heq => hn.1 (heq ▸ List.mem_map_of_mem hf)
    · rw [findEntry, List.find?_cons_of_neg (by simpa using hd)] at he
      rw [List.eraseP_cons_of_neg (by simpa using hd)] at hf
      rcases List.mem_cons.mp hf with rfl | hf
      · exact fun heq => hn.1 (heq ▸ List.mem_map_of_mem (mem_of_findEntry he).1)
      · exact ih hn.2 he hf

lemma Sound.removed {inodes : ℕ → RamfsInode} (h : Sound inodes) {parentIdx : ℕ}
    {basename : CString} {e : RamfsDirent} (hp : UsedDir inodes parentIdx)
    (he : findEntry (inodes parentIdx).entries basename = some e) (hne : e.inodeIdx ≠ parentIdx) :
    Sound (removed inodes parentIdx basename e.inodeIdx) := by
  have hmeme := (mem_of_findEntry he).1
  have hsub : ∀ i, UsedDir (Ramfs.removed inodes parentIdx basename e.inodeIdx) i →
      UsedDir inodes i ∧ (Ramfs.removed inodes parentIdx basename e.inodeIdx i).entries.Sublist
        (inodes i).entries ∧
        ∀ f ∈ (Ramfs.removed inodes parentIdx basename e.inodeIdx i).entries,
          f.inodeIdx ≠ e.inodeIdx := by
    intro i hi
    obtain ⟨hd, hii⟩ := (usedDir_removed hne).mp hi
    by_cases hip : i = parentIdx
    · subst hip
      rw [removed_parent hne]
      exact ⟨hd, List.eraseP_sublist, fun f hf => not_mem_erase (h.nodup i hd) he hf⟩
    · rw [removed_of_ne hii hip]
      exact ⟨hd, List.Sublist.refl _, fun f hf heq => hip (h.apart i parentIdx hd hp f hf e hmeme heq)⟩
  refine ⟨(usedDir_removed hne).mpr ⟨h.root, fun hz => ?_⟩, fun i hi f hf => ?_, fun i hi => ?_,
    fun i j hi hj f hf g hg hfg => ?_⟩
  · have hlo := (h.entry parentIdx hp e hmeme).1
    omega
  · obtain ⟨hd, hs, hnot⟩ := hsub i hi
    obtain ⟨hlo, hhi, hu⟩ := h.entry i hd f (hs.subset hf)
    refine ⟨hlo, hhi, ?_⟩
    by_cases hfp : f.inodeIdx = parentIdx
    · rw [hfp, removed_parent hne]
      exact hp.2.1
    · rw [removed_of_ne (hnot f hf) hfp]
      exact hu
  · obtain ⟨hd, hs, _⟩ := hsub i hi
    exact (hs.map _).nodup (h.nodup i hd)
  · obtain ⟨hd, hs, _⟩ := hsub i hi
    obtain ⟨hd', hs', _⟩ := hsub j hj
    exact h.apart i j hd hd' f (hs.subset hf) g (hs'.subset hg) hfg

lemma freeSlots_added {inodes : ℕ → RamfsInode} {p idx : ℕ} (type : InodeType) (basename : CString)
    (hp : UsedDir inodes p) (hf : FirstFree inodes idx) :
    freeSlots (added inodes type p basename idx) + 1 = freeSlots inodes := by
  have hmem : idx ∈ (Finset.range ramfsMaxFiles).filter fun i => (inodes i).used = false :=
    Finset.mem_filter.mpr ⟨Finset.mem_range.mpr hf.1, hf.2.1⟩
  have herase : ((Finset.range ramfsMaxFiles).filter fun i =>
      (added inodes type p basename idx i).used = false) =
        ((Finset.range ramfsMaxFiles).filter fun i => (inodes i).used = false).erase idx := by
    ext i
    simp only [Finset.mem_filter, Finset.mem_erase, used_added type basename hp hf]
    tauto
  rw [freeSlots, herase, Finset.card_erase_of_mem hmem, freeSlots]
  have := Finset.card_pos.mpr ⟨idx, hmem⟩
  omega

lemma NthFree.of_added {inodes : ℕ → RamfsInode} {p idx k i : ℕ} {type : InodeType}
    {basename : CString} (hp : UsedDir inodes p) (hf : FirstFree inodes idx)
    (h : NthFree (added inodes type p basename idx) k i) : NthFree inodes (k + 1) i := by
  obtain ⟨hlt, hu, hcard⟩ := h
  obtain ⟨hui, hne⟩ := (used_added type basename hp hf i).mp hu
  have hidx : idx < i := by
    by_contra hle
    have hused := hf.2.2 i (by omega)
    rw [hui] at hused
    cases hused
  have hmem : idx ∈ (Finset.range i).filter fun j => (inodes j).used = false :=
    Finset.mem_filter.mpr ⟨Finset.mem_range.mpr hidx, hf.2.1⟩
  have herase : ((Finset.range i).filter fun j => (added inodes type p basename idx j).used = false) =
      ((Finset.range i).filter fun j => (inodes j).used = false).erase idx := by
    ext j
    simp only [Finset.mem_filter, Finset.mem_erase, used_added type basename hp hf]
    tauto
  rw [herase, Finset.card_erase_of_mem hmem] at hcard
  have hpos := Finset.card_pos.mpr ⟨idx, hmem⟩
  exact ⟨hlt, hui, by omega⟩

end Veni.Filesystem.Ramfs
