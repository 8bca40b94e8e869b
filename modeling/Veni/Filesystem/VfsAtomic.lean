import Veni.Filesystem.VfsCreate
import Veni.Filesystem.VfsNamespace
import Veni.Filesystem.VfsOutcome

/-! What a failed `vfs_create` leaves behind. -/

namespace Veni.Filesystem.Vfs

open Veni.Lib Veni.Libc Veni.Lib.Tokens Veni.Lib.NameGraph

/-- The same paths resolve, the same paths are found, and the tables are the same. -/
structure SameState (v w : Vfs) : Prop where
  resolves : ∀ path, (w.vfsResolve path).1 ≠ none ↔ (v.vfsResolve path).1 ≠ none
  stats : ∀ path, (w.vfsStat path).1 ≠ none ↔ (v.vfsStat path).1 ≠ none
  inodes : w.ramfs.inodes = v.ramfs.inodes
  files : w.files = v.files

/-- The call has a result, and if it is -1, nothing has changed. -/
def Atomic (v : Vfs) (path : CString) : Prop :=
  ∃ fd w, v.vfsCreate path = some (fd, w) ∧ (fd = none → SameState v w)

lemma atomic_of_some {v : Vfs} {path : CString} {res : Option ℕ × Vfs} (h : v.vfsCreate path = some res) :
    Atomic v path ↔ (res.1 = none → SameState v res.2) := by
  constructor
  · rintro ⟨fd, w, he, hsame⟩
    cases h.symm.trans he
    exact hsame
  · exact fun hsame => ⟨res.1, res.2, h, hsame⟩

structure Grown (v w : Vfs) (root : ℕ) : Prop where
  slots_le : w.slots ≤ v.slots
  inodes : w.slots = v.slots → w.ramfs.inodes = v.ramfs.inodes
  files : w.files = v.files
  entry : ∀ ns, v.entry root ns ≠ none → w.entry root ns ≠ none

section Grown

variable {u v w : Vfs} {root fs : ℕ}

lemma Grown.trans (h : Grown u v root) (g : Grown v w root) : Grown u w root where
  slots_le := g.slots_le.trans h.slots_le
  inodes he := by
    have hv := g.slots_le
    have hu := h.slots_le
    exact (g.inodes (by omega)).trans (h.inodes (by omega))
  files := g.files.trans h.files
  entry ns hns := g.entry ns (h.entry ns hns)

lemma Grown.of_inodes (hi : w.ramfs.inodes = v.ramfs.inodes) (hf : w.files = v.files)
    (hn : w.nodes = v.nodes) : Grown v w root where
  slots_le := by rw [slots, slots, hi]
  inodes _ := hi
  files := hf
  entry ns hns := by rwa [entry_congr hn]

lemma Kept.entry (h : Kept v w root) (ns : List CString) (hns : v.entry root ns ≠ none) :
    w.entry root ns ≠ none := by
  rw [Ne, entry_eq_none] at hns ⊢
  obtain ⟨i, hi⟩ := Option.ne_none_iff_exists'.mp hns
  rw [h.walk ns i hi]
  simp

lemma DirMade.grown {current : ℕ} {cs : List CString} {t : CString} {child : Option ℕ}
    (hd : DirMade v w root fs current cs t child) (hdirs : DirsOnly v w root) : Grown v w root where
  slots_le := by
    rcases hd.ramfs with ⟨_, _, hslots, _⟩ | ⟨_, hi⟩
    · omega
    · rw [Vfs.slots, Vfs.slots, hi]
  inodes he := by
    rcases hd.ramfs with ⟨_, _, hslots, _⟩ | ⟨_, hi⟩
    · omega
    · exact hi
  files := hdirs.files
  entry := hdirs.kept.entry

lemma Grown.sameState_iff (hg : Grown v w root) (h : Ready v root fs) (hw : Ready w root fs) :
    SameState v w ↔ w.slots = v.slots ∧ ∀ path, path.head? = some slash →
      w.entry root (Ramfs.components (relOf path)) ≠ none →
        v.entry root (Ramfs.components (relOf path)) ≠ none := by
  have hresolve : ∀ {x : Vfs} {path : CString}, Ready x root fs → path.head? = some slash →
      ((x.vfsResolve path).1 ≠ none ↔ x.entry root (Ramfs.components (relOf path)) ≠ none) := by
    intro x path hx hp
    rw [hx.mounted.resolve_eq hp, Ne, Ne, entry_eq_none]
  constructor
  · intro hs
    refine ⟨by rw [slots, slots, hs.inodes], fun path hp hne => ?_⟩
    rw [← hresolve h hp, ← hs.resolves, hresolve hw hp]
    exact hne
  · rintro ⟨hslots, hpaths⟩
    have hi := hg.inodes hslots
    refine ⟨fun path => ?_, fun path => ?_, hi, hg.files⟩
    · by_cases hp : path.head? = some slash
      · rw [hresolve h hp, hresolve hw hp]
        exact ⟨hpaths path hp, hg.entry _⟩
      · rw [resolve_of_not_absolute hp, resolve_of_not_absolute hp]
    · rw [hw.mounted.stat_eq, h.mounted.stat_eq]
      split
      · rw [(stat_state _ _).1, (stat_state _ _).1, Ramfs.findInode_eq hw.sound, Ramfs.findInode_eq h.sound, hi]
      · exact Iff.rfl

end Grown

section Directory

variable {v w : Vfs} {root fs node : ℕ} {rel t u : CString} {cs us : List CString}

lemma DirMade.slots_eq_iff {child : Option ℕ} (hd : DirMade v w root fs node cs t child) :
    w.slots = v.slots ↔ ¬ v.ramfs.Room (join slash (cs ++ [t])) := by
  rcases hd.ramfs with ⟨hroom, _, hslots, _⟩ | ⟨hroom, hi⟩
  · exact iff_of_false (by omega) (not_not.mpr hroom)
  · exact iff_of_true (by rw [Vfs.slots, Vfs.slots, hi]) hroom

lemma DirMade.failed_sameState (hd : DirMade v w root fs node cs t none) (h : Ready v root fs)
    (hg : Grown v w root) :
    SameState v w ↔ ¬ v.ramfs.Room (join slash (cs ++ [t])) := by
  rw [hg.sameState_iff h hd.ready, hd.slots_eq_iff, entry_congr (hd.failed rfl).2]
  exact and_iff_left fun _ _ hne => hne

lemma DirMade.made_sameState {child : ℕ} (hd : DirMade v w root fs node cs t (some child))
    (h : Ready v root fs) (hg : Grown v w root) (hts : Ramfs.components rel = cs ++ t :: u :: us)
    (hw : walk (links v) root cs = some node) :
    SameState v w ↔ ¬ v.ramfs.Room (join slash (cs ++ [t])) ∧ v.entry root (cs ++ [t.take 31]) ≠ none := by
  obtain ⟨hwcs, hwt, _, hlen⟩ := dir_words hts
  have hentry := ((hd.made child rfl).2.2.2.1 cs hw).2
  rw [hg.sameState_iff h hd.ready, hd.slots_eq_iff, hentry]
  refine and_congr_right fun _ => ⟨fun hpaths => ?_, fun hthere path _ hne => ?_⟩
  · have hwords : ∀ c ∈ cs ++ [t.take 31], IsWord isSlash c := by
      intro c hc
      rcases List.mem_append.mp hc with hc | hc
      · exact hwcs c hc
      · rw [List.mem_singleton.mp hc]
        exact (isComponent_take hwt).1
    have hshort : (join slash (cs ++ [t.take 31])).length ≤ 255 :=
      (length_join_concat_le slash cs (List.length_take_le' 31 t)).trans hlen.le
    have hrel : Ramfs.components (relOf (slash :: join slash (cs ++ [t.take 31]))) = cs ++ [t.take 31] := by
      rw [relOf_join hwords, Ramfs.components_join hwords hshort]
    have hplace := hpaths (slash :: join slash (cs ++ [t.take 31])) rfl
    rw [hrel] at hplace
    exact hplace (by rw [gain, if_pos rfl]; cases v.entry root (cs ++ [t.take 31]) <;> simp)
  · by_cases hp : Ramfs.components (relOf path) = cs ++ [t.take 31]
    · rw [hp]
      exact hthere
    · rwa [gain_of_ne hp] at hne

end Directory

section File

variable {v w x : Vfs} {root fs current : ℕ} {rel t u : CString} {cs us : List CString}

lemma SameState.slots (h : SameState v w) : w.slots = v.slots := by
  rw [Vfs.slots, Vfs.slots, h.inodes]

lemma create_slots (hs : Ramfs.Sound x.ramfs.inodes) (rel : CString) :
    (x.ramfs.Room rel ∧ (x.ramfs.ramfsCreate rel).1 ≠ none ∧
        Ramfs.freeSlots (x.ramfs.ramfsCreate rel).2.inodes + 1 = x.slots) ∨
      ¬ x.ramfs.Room rel ∧ (x.ramfs.ramfsCreate rel).1 = none ∧
        (x.ramfs.ramfsCreate rel).2.inodes = x.ramfs.inodes := by
  rcases (Ramfs.create_cases hs rel).2 with ⟨hres, hi, hno⟩ | ⟨p, idx, he, hres, hi⟩
  · exact .inr ⟨fun ⟨p, idx, he⟩ => hno p idx he, hres, hi⟩
  · exact .inl ⟨⟨p, idx, he⟩, by rw [hres]; simp, by rw [hi]; exact Ramfs.freeSlots_added .file _ he.dir he.free⟩

lemma Grown.sameState_of_ramfs {r : Ramfs} (hg : Grown v x root) (h : Ready v root fs)
    (hx : Ready x root fs) (hr : Ready { x with ramfs := r } root fs)
    (hi : r.inodes = x.ramfs.inodes) : SameState v { x with ramfs := r } ↔ SameState v x := by
  have hgr : Grown v { x with ramfs := r } root := hg.trans (.of_inodes hi rfl rfl)
  have he : Vfs.entry { x with ramfs := r } root = x.entry root := entry_congr rfl
  rw [hgr.sameState_iff h hr, hg.sameState_iff h hx, he]
  simp only [Vfs.slots, hi]

lemma Grown.createFile_iff (hg : Grown v x root) (h : Ready v root fs) (hx : Ready x root fs)
    (hc : current < x.ramfs.heap.calls) (habsent : target (links x current) u = none) :
    ((createFile x (rootMount root fs) current rel (some u)).1 = none →
        SameState v (createFile x (rootMount root fs) current rel (some u)).2) ↔
      x.ramfs.Room rel ∧ Memory x 0 ∧ Descriptor x ∨ ¬ x.ramfs.Room rel ∧ SameState v x := by
  have hends := createFile_ends hx.sound (rootMount root fs) hc rel u
  have hle := hg.slots_le
  rcases create_slots hx.sound rel with ⟨hroom, hres, hslots⟩ | ⟨hroom, hres, hi⟩
  · rw [or_iff_left (fun hno => hno.1 hroom)]
    -- an inode has gone
    have hdiffers : ∀ w : Vfs, w.ramfs.inodes = (x.ramfs.ramfsCreate rel).2.inodes → ¬ SameState v w := by
      intro w hw hsame
      have hfree := hsame.slots
      rw [Vfs.slots, hw] at hfree
      omega
    generalize createFile x (rootMount root fs) current rel (some u) = out at hends
    cases hends with
    | taken ht => exact absurd habsent ht
    | refused _ hno => exact absurd hno hres
    | noMemory _ _ hout =>
      exact iff_of_false (fun hall => hdiffers _ rfl (hall rfl)) fun hyes => hyes.2.1 hout
    | noDescriptor _ _ _ hnew hfull =>
      refine iff_of_false (fun hall => hdiffers _ hnew.inodes (hall rfl)) fun hyes => ?_
      obtain ⟨_, _, fd, hlt, hu⟩ := hyes
      rw [hfull fd hlt] at hu
      cases hu
    | opened _ _ hout _ hfd =>
      exact iff_of_true (fun hno => by cases hno) ⟨hroom, hout, _, hfd.1, hfd.2.1⟩
  · rw [or_iff_right (fun hyes => hroom hyes.1), and_iff_right hroom]
    have hsame := hg.sameState_of_ramfs h hx (hx.create rel) hi
    generalize createFile x (rootMount root fs) current rel (some u) = out at hends
    cases hends with
    | taken ht => exact absurd habsent ht
    | refused => exact ⟨fun hall => hsame.mp (hall rfl), fun hsx _ => hsame.mpr hsx⟩
    | noMemory _ hyes => exact absurd (hres.symm.trans hyes) (by simp)
    | noDescriptor _ hyes => exact absurd (hres.symm.trans hyes) (by simp)
    | opened _ hyes => exact absurd (hres.symm.trans hyes) (by simp)

end File

/-- `vfs_create` fails, if it does, before it has changed anything, and never reads the array that is
gone. -/
structure Clean (v : Vfs) (root : ℕ) (rel : CString) : Prop where
  nameless : Ramfs.components rel = [] → Missing v root [] nullString → v.ramfs.Room rel →
    Memory v 0 ∧ Descriptor v
  present : ∀ cs t, Ramfs.components rel = cs ++ [t] → Missing v root cs t → v.ramfs.Room rel →
    Memory v 0 ∧ Descriptor v
  missing : ∀ cs t u us, Ramfs.components rel = cs ++ t :: u :: us → Missing v root cs t →
    Succeeds v root rel ∨ ¬ v.ramfs.Room (join slash (cs ++ [t])) ∧
      (¬ Memory v 0 ∨ ¬ (cs ≠ [] ∧ v.ramfs.entry cs.dropLast = none) ∧
        v.entry root (cs ++ [t.take 31]) ≠ none)

section Clean

variable {v : Vfs} {root fs : ℕ} {path rel t u : CString} {cs us : List CString}

lemma clean_missing (hts : Ramfs.components rel = cs ++ t :: u :: us) (hmiss : Missing v root cs t) :
    Clean v root rel ↔ Succeeds v root rel ∨ ¬ v.ramfs.Room (join slash (cs ++ [t])) ∧
      (¬ Memory v 0 ∨ ¬ (cs ≠ [] ∧ v.ramfs.entry cs.dropLast = none) ∧
        v.entry root (cs ++ [t.take 31]) ≠ none) := by
  refine ⟨fun hc => hc.missing cs t u us hts hmiss, fun hdir => ⟨fun hnil => ?_, ?_, ?_⟩⟩
  · rw [hts] at hnil
    simp at hnil
  · intro ds d hds hmiss'
    obtain ⟨_, _, hnil⟩ := hmiss.unique hmiss' (hts.symm.trans hds)
    cases hnil
  · intro ds d e es hds hmiss'
    obtain ⟨rfl, rfl, _⟩ := hmiss.unique hmiss' (hts.symm.trans hds)
    exact hdir

lemma Grown.of_cursor {x : Vfs} {next : Option Cursor} (hg : Grown v x root) :
    Grown v (x.setCursor next) root :=
  hg.trans (.of_inodes rfl rfl rfl)

lemma Grown.sameState_cursor {x : Vfs} {next : Option Cursor} (hg : Grown v x root)
    (h : Ready v root fs) (hx : Ready x root fs) : SameState v (x.setCursor next) ↔ SameState v x :=
  hg.sameState_of_ramfs h hx (hx.cursor next) rfl

lemma Ready.grown_cursor (h : Ready v root fs) (next : Option Cursor) :
    Grown v (v.setCursor next) root ∧ SameState v (v.setCursor next) :=
  have hg : Grown v (v.setCursor next) root := .of_inodes rfl rfl rfl
  ⟨hg, (hg.sameState_iff h (h.cursor next)).mpr ⟨rfl, fun _ _ hne => hne⟩⟩

lemma Ready.atomic_file (h : Ready v root fs) {node : ℕ} (hw : walk (links v) root cs = some node)
    (next : Option Cursor) :
    ((createFile (v.setCursor next) (rootMount root fs) node rel (some t)).1 = none →
      SameState v (createFile (v.setCursor next) (rootMount root fs) node rel (some t)).2) ↔
      (Missing v root cs t → v.ramfs.Room rel → Memory v 0 ∧ Descriptor v) := by
  obtain ⟨hg, hsame⟩ := h.grown_cursor next
  cases htaken : target (links v node) t with
  | some i =>
    have hends := createFile_ends (h.cursor next).sound (rootMount root fs) (h.rooted.walk_lt hw) rel t
    have hyes : target (links (v.setCursor next) node) t ≠ none := by
      rw [show links (v.setCursor next) = links v from rfl, htaken]
      simp
    have hno : ¬ Missing v root cs t := by
      intro hmiss
      obtain ⟨j, hj, habsent⟩ := hmiss.target
      cases hw.symm.trans hj
      rw [htaken] at habsent
      cases habsent
    generalize createFile (v.setCursor next) (rootMount root fs) node rel (some t) = out at hends ⊢
    refine iff_of_true (fun _ => ?_) fun hmiss => absurd hmiss hno
    cases hends with
    | taken => exact hsame
    | refused habsent => exact absurd habsent hyes
    | noMemory habsent => exact absurd habsent hyes
    | noDescriptor habsent => exact absurd habsent hyes
    | opened habsent => exact absurd habsent hyes
  | none =>
    have hmiss := missing_of_target hw htaken
    rw [hg.createFile_iff h (h.cursor next) (h.rooted.walk_lt hw) htaken]
    have hroom : (v.setCursor next).ramfs.Room rel ↔ v.ramfs.Room rel := Iff.rfl
    have hmem : Memory (v.setCursor next) 0 ↔ Memory v 0 := Iff.rfl
    have hfd : Descriptor (v.setCursor next) ↔ Descriptor v := Iff.rfl
    rw [hroom, hmem, hfd]
    tauto

lemma clean_nil (hts : Ramfs.components rel = []) :
    Clean v root rel ↔
      (Missing v root [] nullString → v.ramfs.Room rel → Memory v 0 ∧ Descriptor v) := by
  refine ⟨fun hc => hc.nameless hts, fun hfile => ⟨fun _ => hfile, ?_, ?_⟩⟩
  · intro cs t hcs
    rw [hts] at hcs
    simp at hcs
  · intro cs t u us hcs
    rw [hts] at hcs
    simp at hcs

lemma clean_found (hts : Ramfs.components rel = cs ++ [t]) {node : ℕ}
    (hw : walk (links v) root cs = some node) :
    Clean v root rel ↔ (Missing v root cs t → v.ramfs.Room rel → Memory v 0 ∧ Descriptor v) := by
  refine ⟨fun hc => hc.present cs t hts, fun hfile => ⟨fun hnil => ?_, fun ds d hds => ?_, ?_⟩⟩
  · rw [hts] at hnil
    simp at hnil
  · obtain ⟨rfl, hd⟩ := List.append_inj' (hts.symm.trans hds) rfl
    cases hd
    exact hfile
  · intro ds d e es hds hmiss
    obtain ⟨i, hi, habsent⟩ := hmiss.target
    exact absurd habsent (not_missing (hts.symm.trans hds) hw hi)

lemma Grown.sameState_of_le {y z : Vfs} (hvy : Grown v y root) (hyz : Grown y z root)
    (h : Ready v root fs) (hy : Ready y root fs) (hz : Ready z root fs) (hsame : SameState v z) :
    SameState v y := by
  obtain ⟨_, hpaths⟩ := ((hvy.trans hyz).sameState_iff h hz).mp hsame
  have hslots := hsame.slots
  have hle := hvy.slots_le
  have hle' := hyz.slots_le
  exact (hvy.sameState_iff h hy).mpr ⟨by omega, fun path hp hne => hpaths path hp (hyz.entry _ hne)⟩

lemma DirMade.twice_sameState {y z : Vfs} {child : ℕ} {child' : Option ℕ}
    (hd : DirMade v y root fs root [] t (some child)) (hd' : DirMade y z root fs child [t] u child')
    (h : Ready v root fs) (hvy : Grown v y root) (hyz : Grown y z root)
    (hts : Ramfs.components rel = t :: u :: us) (hmiss : Missing v root [] t) (hus : us ≠ []) :
    SameState v z ↔ SameState v y := by
  refine ⟨hvy.sameState_of_le hyz h hd.ready hd'.ready, fun hsame => ?_⟩
  obtain ⟨_, hthere⟩ := (hd.made_sameState h hvy (show _ = [] ++ t :: u :: us from hts) rfl).mp hsame
  have hlong : t.take 31 ≠ t := fun ht => hthere (by rw [ht]; exact hmiss.2)
  obtain ⟨x, us, rfl⟩ := List.exists_cons_of_ne_nil hus
  obtain ⟨hone, hwu, _, hlen⟩ := dir_words (show _ = [t] ++ u :: x :: us from hts)
  have hroom : ¬ y.ramfs.Room (join slash ([t] ++ [u])) := by
    rw [room_join hd.ready.sound hone hwu hlen.le]
    rintro ⟨hdir, _⟩
    exact hlong (List.take_of_length_le (Ramfs.entry_names [t] (by rw [hdir]; simp) t (by simp)))
  have hentry : z.entry root = y.entry root := hd'.entry_unreached (hd.unreached rfl hthere)
  obtain ⟨hslots, hpaths⟩ := (hvy.sameState_iff h hd.ready).mp hsame
  exact ((hvy.trans hyz).sameState_iff h hd'.ready).mpr
    ⟨(hd'.slots_eq_iff.mpr hroom).trans hslots, hentry ▸ hpaths⟩

lemma Ready.atomic_made (h : Ready v root fs) (hts : Ramfs.components rel = cs ++ t :: u :: us)
    (hmiss : Missing v root cs t) (hfound : ¬ (cs ≠ [] ∧ v.ramfs.entry cs.dropLast = none))
    (hmem : Memory v 0) {z : Vfs} {current : ℕ} {x : CString} (next : Option Cursor)
    (hz : Ready z root fs) (hg : Grown v z root) (hc : current < z.ramfs.heap.calls)
    (hleaf : links z current = [])
    (hsucc : Succeeds v root rel ↔ z.ramfs.Room rel ∧ Memory z 0 ∧ Descriptor v)
    (hsame : SameState v z ↔ ¬ v.ramfs.Room (join slash (cs ++ [t])) ∧
      v.entry root (cs ++ [t.take 31]) ≠ none) :
    ((createFile (z.setCursor next) (rootMount root fs) current rel (some x)).1 = none →
      SameState v (createFile (z.setCursor next) (rootMount root fs) current rel (some x)).2) ↔
      Clean v root rel := by
  have habsent : target (links (z.setCursor next) current) x = none := by
    rw [show links (z.setCursor next) current = [] from hleaf]
    rfl
  have hroom : (z.setCursor next).ramfs.Room rel ↔ z.ramfs.Room rel := Iff.rfl
  have hmemz : Memory (z.setCursor next) 0 ↔ Memory z 0 := Iff.rfl
  have hfd : Descriptor (z.setCursor next) ↔ Descriptor v := descriptor_congr hg.files
  have hhidden : v.entry root (cs ++ [t.take 31]) ≠ none → ¬ z.ramfs.Room rel :=
    fun hne => no_room_below hz.sound hts fun ht => hne (by rw [ht]; exact hmiss.2)
  rw [hg.of_cursor.createFile_iff h (hz.cursor next) hc habsent, hg.sameState_cursor h hz,
    clean_missing hts hmiss, hsame, hsucc, hroom, hmemz, hfd]
  constructor
  · rintro (hyes | ⟨_, hdir, hne⟩)
    · exact .inl hyes
    · exact .inr ⟨hdir, .inr ⟨hfound, hne⟩⟩
  · rintro (hyes | ⟨hdir, hor⟩)
    · exact .inl hyes
    · have hne := (hor.resolve_left (not_not.mpr hmem)).2
      exact .inr ⟨hhidden hne, hdir, hne⟩

lemma DirMade.atomic_failed {x : Vfs} {node : ℕ} (hd : DirMade v x root fs node cs t none)
    (h : Ready v root fs) (hg : Grown v x root) (hts : Ramfs.components rel = cs ++ t :: u :: us)
    (hmiss : Missing v root cs t) : SameState v x ↔ Clean v root rel := by
  have hmem := (hd.failed rfl).1
  obtain ⟨asked, hasks⟩ := asks_of_missing hts hmiss
  have hnot := not_succeeds hasks (Nat.zero_le _) hmem
  rw [hd.failed_sameState h hg, clean_missing hts hmiss]
  tauto

lemma Ready.atomic_iff (h : Ready v root fs) (hp : path.head? = some slash) :
    Atomic v path ↔ Clean v root (relOf path) := by
  by_cases hnil : Ramfs.components (relOf path) = []
  · rw [atomic_of_some (h.mounted.create_null hp hnil), clean_nil hnil]
    exact h.atomic_file (walk_nil (links v) root) _
  have hends := h.create_cases hp hnil
  have hnone : ∀ {cs us t u}, Ramfs.components (relOf path) = cs ++ t :: u :: us →
      Missing v root cs t → (v.vfsCreate path = none ↔
        Memory v 0 ∧ cs ≠ [] ∧ v.ramfs.entry cs.dropLast = none) :=
    fun hts hmiss => h.create_none_iff hp hts hmiss
  generalize hres : v.vfsCreate path = res at hends hnone
  cases hends with
  | found next hts hw =>
    rw [atomic_of_some hres, clean_found hts hw]
    exact h.atomic_file hw next
  | failed hts hw habsent hmade hdirs =>
    rw [atomic_of_some hres,
      ← hmade.atomic_failed h (hmade.grown hdirs) hts (missing_of_target hw habsent)]
    exact ⟨fun hall => hall rfl, fun hsame _ => hsame⟩
  | @made cs us t u node child x next hts hw habsent hend hmade hdirs hlt =>
    have hmiss := missing_of_target hw habsent
    obtain ⟨hmem, hleaf, _⟩ := hmade.made child rfl
    rw [atomic_of_some hres]
    exact h.atomic_made hts hmiss (fun hlost => by simpa using (hnone hts hmiss).mpr ⟨hmem, hlost⟩) hmem
      next hmade.ready (hmade.grown hdirs) hlt hleaf (hmade.succeeds_iff h.sound hts hmiss hend)
      (hmade.made_sameState h (hmade.grown hdirs) hts hw)
  | @lost cs us t u node hts hw habsent _ =>
    have hmiss := missing_of_target hw habsent
    obtain ⟨hmem, hgone⟩ := (hnone hts hmiss).mp rfl
    refine iff_of_false (fun ⟨fd, w, he, _⟩ => by cases hres.symm.trans he) fun hclean => ?_
    rcases (clean_missing hts hmiss).mp hclean with hs | ⟨_, hno | ⟨hfound, _⟩⟩
    · have habove := hs.above hts hmiss
      exact walk_dropLast (fun hno => by simp [Ramfs.entry_eq_none.mpr hno] at habove)
        (Ramfs.entry_eq_none.mp hgone.2)
    · exact hno hmem
    · exact hfound hgone
  | @failedTwice us t u x child y z hts habsent hmade hdirs hmade' hdirs' =>
    have hts' : Ramfs.components (relOf path) = [] ++ t :: u :: x :: us := hts
    have hmiss : Missing v root [] t := missing_of_target rfl habsent
    have hmem := (hmade.made child rfl).1
    have hmem' : ¬ Memory v 1 := mt (hmade.memory 0).mpr (hmade'.failed rfl).1
    have hnot : ¬ Succeeds v root (relOf path) := not_succeeds (.two hts hmiss) (by simp) hmem'
    have hsame := hmade.twice_sameState hmade' h (hmade.grown hdirs) (hmade'.grown hdirs') hts hmiss
      (by simp)
    have hroot : ¬ (([] : List CString) ≠ [] ∧ v.ramfs.entry [].dropLast = none) := fun hne => hne.1 rfl
    rw [atomic_of_some hres, clean_missing hts' hmiss, or_iff_right hnot, or_iff_right (not_not.mpr hmem),
      and_iff_right hroot, ← hmade.made_sameState h (hmade.grown hdirs) hts' rfl, ← hsame]
    exact ⟨fun hall => hall rfl, fun hs _ => hs⟩
  | @madeTwice us t u x child child' y z next hts habsent hmade hdirs hmade' hdirs' hlt =>
    have hts' : Ramfs.components (relOf path) = [] ++ t :: u :: x :: us := hts
    have hmiss : Missing v root [] t := missing_of_target rfl habsent
    have hmem := (hmade.made child rfl).1
    have hleaf := (hmade'.made child' rfl).2.1
    have hsame := (hmade.twice_sameState hmade' h (hmade.grown hdirs) (hmade'.grown hdirs') hts hmiss
      (by simp)).trans (hmade.made_sameState h (hmade.grown hdirs) hts' rfl)
    rw [atomic_of_some hres]
    exact h.atomic_made hts' hmiss (fun hne => hne.1 rfl) hmem next hmade'.ready
      ((hmade.grown hdirs).trans (hmade'.grown hdirs')) hlt hleaf
      (hmade.succeeds_twice hmade' h.sound hts hmiss) hsame

end Clean

/-- In every reachable state `vfs_create` returns, and changes nothing when it fails, if and only if it
fails, if at all, before it has taken an inode or made a directory that shows. -/
theorem create_atomic_iff {v₀ v : Vfs} (hb : Booted v₀) {ls : List (Op × Result)}
    (hrun : Transition.Run Step v₀ ls v) (path : CString) :
    Atomic v path ↔ (path.head? = some slash → Clean v 0 (relOf path)) := by
  have h := ready_of_run hb hrun
  by_cases hp : path.head? = some slash
  · rw [h.atomic_iff hp]
    exact ⟨fun hc _ => hc, fun hc => hc hp⟩
  · refine iff_of_true ((atomic_of_some (create_of_not_absolute hp)).mpr fun _ => ?_)
      fun hyes => absurd hyes hp
    exact ⟨fun _ => .rfl, fun _ => .rfl, rfl, rfl⟩

lemma clean_again : Clean (bootedZero.next (.create (cstring "/a"))) 0 (relOf (cstring "/a")) := by
  have hcomps : Ramfs.components (relOf (cstring "/a")) = [cstring "a"] := by decide
  have hw : walk (links (bootedZero.next (.create (cstring "/a")))) 0 [] = some 0 := rfl
  rw [clean_found (show _ = [] ++ [cstring "a"] from hcomps) hw]
  rintro ⟨_, hnone⟩
  have hthere : (bootedZero.next (.create (cstring "/a"))).entry 0 [cstring "a"] ≠ none := by decide
  exact absurd hnone hthere

theorem create_atomic_iff_again :
    (bootedZero.next (.create (cstring "/a"))).exec (.create (cstring "/a")) ≠ none ∧
      Atomic (bootedZero.next (.create (cstring "/a"))) (cstring "/a") :=
  ⟨by decide, (create_atomic_iff bootedZero_booted (.cons (step_next rfl) (.nil _)) _).mpr
    fun _ => clean_again⟩

/-- The call fails for want of the third directory and leaves the other two. -/
theorem failed_create_stays :
    ∃ w, bootedZero.vfsCreate (cstring "/a/b/c/d") = some (none, w) ∧
      (bootedZero.vfsResolve (cstring "/a/b")).1 = none ∧ (w.vfsResolve (cstring "/a/b")).1 ≠ none ∧
      ¬ Atomic bootedZero (cstring "/a/b/c/d") := by
  have hfails : (bootedZero.vfsCreate (cstring "/a/b/c/d")).map (fun res => (res.1,
      ((res.2.vfsResolve (cstring "/a/b")).1.isSome))) = some (none, true) := by decide
  have hbefore : (bootedZero.vfsResolve (cstring "/a/b")).1 = none := by decide
  obtain ⟨⟨fd, w⟩, hw, hres⟩ := Option.map_eq_some_iff.mp hfails
  obtain ⟨rfl, hafter⟩ := Prod.mk.inj hres
  have hne : (w.vfsResolve (cstring "/a/b")).1 ≠ none := Option.isSome_iff_ne_none.mp hafter
  refine ⟨w, hw, hbefore, hne, fun hatomic => ?_⟩
  exact ((atomic_of_some hw).mp hatomic rfl).resolves _ |>.mp hne hbefore

end Veni.Filesystem.Vfs
