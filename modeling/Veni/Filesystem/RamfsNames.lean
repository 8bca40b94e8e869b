import Veni.Filesystem.RamfsPaths

/-! The names of directory entries after operations on any path strings. -/

namespace Veni.Filesystem.Ramfs

open Veni.Libc Veni.Lib.Tokens Veni.Lib.NameGraph Veni.Lib.Transition

/-- Names are distinct and not empty, a lookup by name finds the entry, and some path leads to it. -/
structure Named (r : Ramfs) : Prop where
  distinct : ∀ i, UsedDir r.inodes i → ((r.inodes i).entries.map fun e => e.name.val).Nodup
  nonempty : ∀ i, UsedDir r.inodes i → ∀ e ∈ (r.inodes i).entries, e.name.val ≠ []
  denotes : ∀ i, UsedDir r.inodes i → ∀ e ∈ (r.inodes i).entries,
    findEntry (r.inodes i).entries e.name.val = some e
  found : ∀ i, UsedDir r.inodes i → ∀ e ∈ (r.inodes i).entries,
    ∃ path, (ramfsFindInode r path).1 = some e.inodeIdx

structure Navigable (inodes : ℕ → RamfsInode) : Prop where
  sound : Sound inodes
  names : ∀ i, ((links inodes i).map Prod.fst).Nodup
  words : ∀ i n j, (n, j) ∈ links inodes i → IsWord isSlash n
  reached : ∀ i, links inodes i ≠ [] → Reached (links inodes) 0 i
  short : ∀ ns j, walk (links inodes) 0 ns = some j → (join slash ns).length ≤ 255

lemma Navigable.find_walk {r : Ramfs} (h : Navigable r.inodes) {ns : List CString} {j : ℕ}
    (hw : walk (links r.inodes) 0 ns = some j) : (ramfsFindInode r (join slash ns)).1 = some j := by
  rw [findInode_eq h.sound, components_join (name_of_walk h.words hw) (h.short ns j hw), hw]

lemma Navigable.named {r : Ramfs} (h : Navigable r.inodes) : Named r := by
  have hmem : ∀ i, UsedDir r.inodes i → ∀ e ∈ (r.inodes i).entries,
      (e.name.val, e.inodeIdx) ∈ links r.inodes i := fun i hi e he => mem_links.mpr ⟨hi, e, he, rfl, rfl⟩
  refine ⟨fun i hi => ?_, fun i hi e he => ?_, fun i hi e he => ?_, fun i hi e he => ?_⟩
  · have hnames := h.names i
    rwa [links_of_usedDir hi, List.map_map] at hnames
  · exact (h.words i _ _ (hmem i hi e he)).1
  · have ht := target_of_mem (h.names i) (hmem i hi e he)
    rw [target_links hi] at ht
    obtain ⟨f, hf, hidx⟩ := Option.map_eq_some_iff.mp ht
    rw [hf, List.inj_on_of_nodup_map (h.sound.nodup i hi) (mem_of_findEntry hf).1 he hidx]
  · have hlinks : links r.inodes i ≠ [] := List.ne_nil_of_mem (hmem i hi e he)
    obtain ⟨ns, hns⟩ := (h.reached i hlinks).trans
      (.of_target (target_of_mem (h.names i) (hmem i hi e he)))
    exact ⟨join slash ns, h.find_walk hns⟩

/-- An entry that the operation adds has a name that is not empty and, as it is stored, not taken. -/
def FreshName (inodes : ℕ → RamfsInode) (path : CString) : Prop :=
  ∀ p idx, Enters inodes path p idx → (splitPath path).2 ≠ [] ∧
    ∀ e ∈ (inodes p).entries, e.name.val ≠ (splitPath path).2.take 31

/-- An entry that the operation removes has no directory with entries in its directory. -/
def ShallowEntry (inodes : ℕ → RamfsInode) (path : CString) : Prop :=
  ∀ p e, Exists inodes path p e → ∀ n k, (n, k) ∈ links inodes e.inodeIdx → links inodes k = []

def KeepsNames (r : Ramfs) : Op → Prop
  | .create path => FreshName r.inodes path
  | .mkdir path => FreshName r.inodes path
  | .unlink path => ShallowEntry r.inodes path
  | .rmdir _ => True
  | .write _ _ _ => True

lemma isWord_basename {path : CString} (h : (splitPath path).2 ≠ []) :
    IsWord isSlash ((splitPath path).2.take 31) := by
  refine ⟨?_, fun c hc => splitPath_basename path c (List.take_subset _ _ hc)⟩
  rw [ne_eq, List.take_eq_nil_iff]
  exact fun hc => hc.elim (by decide) h

lemma length_join_entered (path : CString) :
    (join slash (components (splitPath path).1 ++ [(splitPath path).2.take 31])).length ≤ 255 := by
  have hlen : (path.take 255).length ≤ 255 := List.length_take_le 255 path
  have hname : ((splitPath path).2.take 31).length ≤ (splitPath path).2.length :=
    List.length_take_le' _ _
  have hdir : (join slash (components (splitPath path).1)).length ≤ (splitPath path).1.length := by
    rw [components, splitPath_dirname]
    exact length_join_tokens_le isSlash slash _
  rcases splitPath_cases path with ⟨_, he⟩ | ⟨d, _, he, _⟩
  · rw [he] at hname ⊢
    simp only [components, List.take_nil, tokens_nil, List.nil_append, join_singleton]
    exact hname.trans hlen
  · rw [he, List.length_append, List.length_cons] at hlen
    by_cases hc : components (splitPath path).1 = []
    · rw [hc, List.nil_append, join_singleton]
      omega
    · rw [join_concat slash hc, List.length_append, List.length_cons]
      omega

section Operations

variable {r : Ramfs} {path : CString} {p : ℕ}

lemma Navigable.added {idx : ℕ} (h : Navigable r.inodes) (he : Enters r.inodes path p idx)
    (hne : (splitPath path).2 ≠ [])
    (hfresh : ∀ e ∈ (r.inodes p).entries, e.name.val ≠ (splitPath path).2.take 31) (type : InodeType) :
    Navigable (Ramfs.added r.inodes type p (splitPath path).2 idx) := by
  have hparent : walk (links r.inodes) 0 (components (splitPath path).1) = some p := he.parent
  have hleaf : links r.inodes idx = [] := by
    have hnot : ¬ UsedDir r.inodes idx := fun hu => he.free.ne hu rfl
    rw [links, if_neg hnot]
  have hnone : target (links r.inodes p) ((splitPath path).2.take 31) = none := by
    refine target_eq_none.mpr fun k hk => ?_
    obtain ⟨_, e, hmem, hname, _⟩ := mem_links.mp hk
    exact hfresh e hmem hname
  have hidx := he.free.ne he.dir
  have hlinks : links (Ramfs.added r.inodes type p (splitPath path).2 idx) =
      link (links r.inodes) p ((splitPath path).2.take 31) idx :=
    links_added type he.dir he.free.2.1 he.free.1
  refine ⟨h.sound.added type _ he.dir he.free, ?_, fun i n j hj => ?_, fun i hi => ?_,
    fun ns j hw => ?_⟩
  · rw [hlinks]
    exact nodup_names_link h.names (target_eq_none.mp hnone)
  · rw [hlinks, mem_link] at hj
    rcases hj with hj | ⟨_, rfl, _⟩
    · exact h.words i n j hj
    · exact isWord_basename hne
  · rw [hlinks] at hi ⊢
    rw [h.sound.tree.reached_link hleaf hidx ⟨_, hparent⟩ hnone]
    left
    by_cases hip : i = p
    · rw [hip]
      exact ⟨_, hparent⟩
    · rw [link_of_ne hip] at hi
      exact h.reached i hi
  · rw [hlinks, h.sound.tree.walk_link_eq hleaf hidx hparent hnone] at hw
    split at hw
    · next hns =>
      rw [hns]
      exact length_join_entered path
    · exact h.short ns j hw

lemma Navigable.removed {e : RamfsDirent} (h : Navigable r.inodes) (he : Exists r.inodes path p e)
    (hbelow : ∀ n k, (n, k) ∈ links r.inodes e.inodeIdx → links r.inodes k = []) :
    Navigable (Ramfs.removed r.inodes p (splitPath path).2 e.inodeIdx) := by
  have hparent : walk (links r.inodes) 0 (components (splitPath path).1) = some p := he.parent
  have hlinks : links (Ramfs.removed r.inodes p (splitPath path).2 e.inodeIdx) =
      cut (links r.inodes) p (splitPath path).2 e.inodeIdx := links_removed he.dir (he.ne h.sound)
  refine ⟨h.sound.removed he.dir he.entry (he.ne h.sound), ?_, fun i n j hj => ?_, fun i hi => ?_,
    fun ns j hw => ?_⟩
  · rw [hlinks]
    exact nodup_names_cut h.names _ _ _
  · rw [hlinks] at hj
    exact h.words i n j (mem_of_mem_cut hj)
  · rw [hlinks] at hi ⊢
    obtain ⟨⟨n, j⟩, hj⟩ := List.exists_mem_of_ne_nil _ hi
    have hne : links r.inodes i ≠ [] := List.ne_nil_of_mem (mem_of_mem_cut hj)
    rw [h.sound.tree.reached_cut ⟨_, hparent⟩ he.target (h.names p)]
    refine ⟨h.reached i hne, fun ⟨ns, hns⟩ => ?_⟩
    cases ns with
    | nil =>
      cases hns
      rw [cut, if_pos rfl] at hi
      exact hi rfl
    | cons m ms =>
      rw [walk_cons] at hns
      obtain ⟨k, hk, hns⟩ := Option.bind_eq_some_iff.mp hns
      have hnil := hbelow m k (mem_of_target hk)
      rw [reached_of_nil hnil ⟨ms, hns⟩] at hne
      exact hne hnil
  · rw [hlinks, h.sound.tree.walk_cut_eq hparent he.target (h.names p)] at hw
    split at hw
    · cases hw
    · exact h.short ns j hw

lemma Named.freshName {idx : ℕ} {s : Ramfs} {type : InodeType} (h : Named s)
    (he : Enters r.inodes path p idx)
    (hs : s.inodes = Ramfs.added r.inodes type p (splitPath path).2 idx) :
    (splitPath path).2 ≠ [] ∧ ∀ e ∈ (r.inodes p).entries, e.name.val ≠ (splitPath path).2.take 31 := by
  have hidx := he.free.ne he.dir
  have hd : UsedDir s.inodes p := by
    rw [hs]
    exact (usedDir_added he.dir he.free.1 hidx).mpr (.inl ⟨he.dir, hidx.symm⟩)
  have hentries : (s.inodes p).entries =
      (r.inodes p).entries ++ [⟨strncpy 31 (splitPath path).2, idx⟩] := by
    rw [hs, added_parent type hidx]
  have hnonempty := h.nonempty p hd
  have hdistinct := h.distinct p hd
  rw [hentries] at hnonempty hdistinct
  constructor
  · intro hnil
    exact hnonempty _ (List.mem_append_right _ (List.mem_singleton_self _)) (by rw [hnil]; rfl)
  · intro e hmem hname
    rw [List.map_append] at hdistinct
    exact (List.nodup_append.mp hdistinct).2.2 _ (List.mem_map_of_mem hmem) _
      (List.mem_singleton_self _) hname

lemma Named.shallow {s : Ramfs} {e : RamfsDirent} (hr : Navigable r.inodes) (h : Named s)
    (hsound : Sound s.inodes) (he : Exists r.inodes path p e)
    (hs : s.inodes = Ramfs.removed r.inodes p (splitPath path).2 e.inodeIdx) {n : CString} {k : ℕ}
    (hk : (n, k) ∈ links r.inodes e.inodeIdx) : links r.inodes k = [] := by
  by_contra hlinks
  obtain ⟨⟨m, j⟩, hj⟩ := List.exists_mem_of_ne_nil _ hlinks
  have hne := he.ne hr.sound
  have hp : Reached (links r.inodes) 0 p := ⟨_, he.parent⟩
  have hkt := target_of_mem (hr.names _) hk
  have hjt := target_of_mem (hr.names k) hj
  -- the directory below the removed one stays as it is
  have hkp : k ≠ p := hr.sound.tree.ne_of_reached hp he.target (.of_target hkt)
  have hke : k ≠ e.inodeIdx := hr.sound.tree.ne_of_reached (hp.trans (.of_target he.target)) hkt (.refl _ _)
  have hcut : links s.inodes = cut (links r.inodes) p (splitPath path).2 e.inodeIdx := by
    rw [hs]
    exact links_removed he.dir hne
  have hmem : (m, j) ∈ links s.inodes k := by
    rwa [hcut, cut, if_neg hke, if_neg hkp]
  obtain ⟨hd, f, hf, _, rfl⟩ := mem_links.mp hmem
  obtain ⟨q, hq⟩ := h.found k hd f hf
  rw [findInode_eq hsound] at hq
  have hreached : Reached (links s.inodes) 0 f.inodeIdx := ⟨_, hq⟩
  rw [hcut, hr.sound.tree.reached_cut hp he.target (hr.names p)] at hreached
  exact hreached.2 (.trans (.of_target hkt) (.of_target hjt))

end Operations

section Step

variable {r : Ramfs} (h : Navigable r.inodes) (path : CString)

include h

lemma Navigable.create_iff : (Named (ramfsCreate r path).2 ↔ FreshName r.inodes path) ∧
    (FreshName r.inodes path → Navigable (ramfsCreate r path).2.inodes) := by
  rcases (create_cases h.sound path).2 with ⟨_, hs, hno⟩ | ⟨p, idx, he, _, hs⟩
  · have hafter : Navigable (ramfsCreate r path).2.inodes := hs ▸ h
    exact ⟨iff_of_true hafter.named fun q idx he => absurd he (hno q idx), fun _ => hafter⟩
  · have hafter : FreshName r.inodes path → Navigable (ramfsCreate r path).2.inodes := by
      intro hfresh
      rw [hs]
      exact h.added he (hfresh p idx he).1 (hfresh p idx he).2 .file
    refine ⟨⟨fun hnamed q i hq => ?_, fun hfresh => (hafter hfresh).named⟩, hafter⟩
    cases hq.parent.symm.trans he.parent
    exact hnamed.freshName he hs

lemma Navigable.mkdir_iff : (Named (ramfsMkdir r path).2 ↔ FreshName r.inodes path) ∧
    (FreshName r.inodes path → Navigable (ramfsMkdir r path).2.inodes) := by
  rcases (mkdir_cases h.sound path).2 with ⟨_, hs, hno, _⟩ | ⟨q, e, hq, _, hs⟩ | ⟨p, idx, he, _, hs⟩
  · have hafter : Navigable (ramfsMkdir r path).2.inodes := hs ▸ h
    exact ⟨iff_of_true hafter.named fun q idx he => absurd he (hno q idx), fun _ => hafter⟩
  · have hafter : Navigable (ramfsMkdir r path).2.inodes := hs ▸ h
    exact ⟨iff_of_true hafter.named fun i idx he => absurd hq he.not_exists, fun _ => hafter⟩
  · have hafter : FreshName r.inodes path → Navigable (ramfsMkdir r path).2.inodes := by
      intro hfresh
      rw [hs]
      exact h.added he (hfresh p idx he).1 (hfresh p idx he).2 .dir
    refine ⟨⟨fun hnamed q i hq => ?_, fun hfresh => (hafter hfresh).named⟩, hafter⟩
    cases hq.parent.symm.trans he.parent
    exact hnamed.freshName he hs

lemma Navigable.unlink_iff : (Named (ramfsUnlink r path).2 ↔ ShallowEntry r.inodes path) ∧
    (ShallowEntry r.inodes path → Navigable (ramfsUnlink r path).2.inodes) := by
  rcases unlink_cases h.sound path with ⟨_, hs, _, hno⟩ | ⟨p, e, he, _, hs, _⟩
  · have hafter : Navigable (ramfsUnlink r path).2.inodes := hs ▸ h
    exact ⟨iff_of_true hafter.named fun q e he => absurd he (hno q e), fun _ => hafter⟩
  · have hafter : ShallowEntry r.inodes path → Navigable (ramfsUnlink r path).2.inodes := by
      intro hshallow
      rw [hs]
      exact h.removed he (hshallow p e he)
    refine ⟨⟨fun hnamed q f hq n k hk => ?_, fun hshallow => (hafter hshallow).named⟩, hafter⟩
    cases hq.parent.symm.trans he.parent
    cases hq.entry.symm.trans he.entry
    refine hnamed.shallow h ?_ he hs hk
    rw [hs]
    exact h.sound.removed he.dir he.entry (he.ne h.sound)

lemma Navigable.rmdir : Navigable (ramfsRmdir r path).2.inodes := by
  rcases (rmdir_cases h.sound path).2 with ⟨_, hs, _⟩ | ⟨p, e, he, _, hs⟩
  · rw [hs]
    exact h
  · rw [hs]
    refine h.removed he.found fun n k hk => ?_
    rw [links_of_usedDir he.dir, he.empty] at hk
    cases hk

omit h in
lemma SameTree.navigable {m n : ℕ → RamfsInode} (hs : SameTree m n) (h : Navigable m) : Navigable n where
  sound := hs.sound h.sound
  names := by
    rw [hs.links]
    exact h.names
  words := by
    rw [hs.links]
    exact h.words
  reached := by
    rw [hs.links]
    exact h.reached
  short := by
    rw [hs.links]
    exact h.short

lemma Navigable.step_iff {o : Op} {s : Ramfs} (hs : Step r o s) :
    (Named s ↔ KeepsNames r o) ∧ (KeepsNames r o → Navigable s.inodes) := by
  cases o with
  | create path =>
    cases hs
    exact h.create_iff path
  | mkdir path =>
    cases hs
    exact h.mkdir_iff path
  | unlink path =>
    cases hs
    exact h.unlink_iff path
  | rmdir path =>
    cases hs
    exact ⟨iff_of_true (h.rmdir path).named trivial, fun _ => h.rmdir path⟩
  | write fd buf offset =>
    obtain ⟨w, hw, rfl⟩ := Option.map_eq_some_iff.mp hs
    have hafter := (write_sameTree hw).navigable h
    exact ⟨iff_of_true hafter.named trivial, fun _ => hafter⟩

end Step

lemma init_navigable (r : Ramfs) : Navigable (ramfsInit r).inodes where
  sound := init_sound r
  names := (init_tidy r).names
  words i n j hj := by
    rw [init_links] at hj
    cases hj
  reached i hi := absurd (init_links r i) hi
  short ns j hw := by
    cases ns with
    | nil => exact Nat.zero_le _
    | cons n ns =>
      rw [walk_of_nil (init_links r 0) (List.cons_ne_nil n ns)] at hw
      cases hw

/-- The names are right after every operation of a run if and only if no added name is empty or taken
once it is cut to length, and no removed directory has a directory with entries. -/
theorem names_kept_iff (r : Ramfs) (ops : List Op) :
    Named (ramfsInit r) ∧
      (Along Step (fun _ _ s => Named s) (ramfsInit r) ops ↔
        Along Step (fun r o _ => KeepsNames r o) (ramfsInit r) ops) :=
  ⟨(init_navigable r).named,
    along_iff (I := fun r => Navigable r.inodes) (H := fun _ _ _ => True)
      (fun _ _ _ hr hstep _ => (hr.step_iff hstep).1)
      (fun _ _ _ hr hstep _ hkeeps => (hr.step_iff hstep).2 hkeeps) (init_navigable r)
      (along_true _ _)⟩

theorem names_broken :
    (∃ s, Run Step (ramfsInit zeroed) [.create (cstring "/")] s ∧
      ∃ e ∈ (s.inodes 0).entries, e.name.val = []) ∧
    (∃ s, Run Step (ramfsInit zeroed)
        [.create (cstring "abcdefghijklmnopqrstuvwxyz0123456"),
          .create (cstring "abcdefghijklmnopqrstuvwxyz0123456")] s ∧
      ¬ ((s.inodes 0).entries.map fun e => e.name.val).Nodup) ∧
    ∃ s, Run Step (ramfsInit zeroed)
        [.mkdir (cstring "a"), .mkdir (cstring "a/b"), .create (cstring "a/b/c"),
          .unlink (cstring "a")] s ∧
      UsedDir s.inodes 2 ∧ ∃ e ∈ (s.inodes 2).entries,
        ∀ path, (ramfsFindInode s path).1 ≠ some e.inodeIdx := by
  refine ⟨⟨_, .single rfl, by decide⟩, ⟨_, .cons rfl (.single rfl), by decide⟩, ?_⟩
  have hrun : Run Step (ramfsInit zeroed)
      [.mkdir (cstring "a"), .mkdir (cstring "a/b"), .create (cstring "a/b/c"), .unlink (cstring "a")]
      (ramfsUnlink (ramfsCreate (ramfsMkdir (ramfsMkdir (ramfsInit zeroed) (cstring "a")).2
        (cstring "a/b")).2 (cstring "a/b/c")).2 (cstring "a")).2 :=
    .cons rfl (.cons rfl (.cons rfl (.single rfl)))
  have hs := hrun.invariant (I := fun r => Sound r.inodes) (fun _ _ _ hr hstep => hr.step hstep)
    (init_sound zeroed)
  refine ⟨_, hrun, by decide, ⟨strncpy 31 (cstring "c"), 3⟩, .head _, fun path hpath => ?_⟩
  have hlinks : links (ramfsUnlink (ramfsCreate (ramfsMkdir (ramfsMkdir (ramfsInit zeroed)
      (cstring "a")).2 (cstring "a/b")).2 (cstring "a/b/c")).2 (cstring "a")).2.inodes 0 = [] := by
    rw [links_of_usedDir hs.root]
    rfl
  rw [findInode_eq hs] at hpath
  exact absurd (reached_of_nil hlinks ⟨_, hpath⟩) (by decide)

end Veni.Filesystem.Ramfs
