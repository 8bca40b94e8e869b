import Veni.Filesystem.VfsEnds
import Veni.Filesystem.VfsSimulation

/-! When the descriptors of a file have nothing to do with a file created later. -/

namespace Veni.Filesystem

open Veni.Libc Veni.Lib.Tokens Veni.Lib.NameGraph Veni.Lib.Transition

namespace Ramfs

structure SlotFor (r : Ramfs) (rel : CString) (asked : List (List CString)) (idx : ℕ) : Prop where
  dirs : ∀ ks, ks <+: components (splitPath rel).1 →
    r.entry ks = some .dir ∨ r.entry ks = none ∧ ks ∈ asked
  absent : r.entry (place rel) = none
  slot : NthFree r.inodes (asked.countP fun ks => (r.entry ks).isNone) idx

lemma Enters.slotFor {r : Ramfs} {rel : CString} {p idx : ℕ} (he : Enters r.inodes rel p idx)
    (h : Sound r.inodes) : SlotFor r rel [] idx := by
  obtain ⟨hdir, habsent, _⟩ := (room_iff h rel).mp ⟨p, idx, he⟩
  refine ⟨fun ks hks => .inl ?_, habsent, he.free.nthFree⟩
  obtain ⟨ls, hls⟩ := hks
  exact entry_dir_of_append (by rw [hls, hdir])

lemma prefix_dirname {rel u : CString} {ks us : List CString} (h : components rel = ks ++ u :: us) :
    ks <+: components (splitPath rel).1 := by
  have hsplit := components_split rel
  by_cases hb : (splitPath rel).2 = []
  · rw [hb, tokens_nil, List.append_nil, h] at hsplit
    exact ⟨u :: us, hsplit⟩
  · rw [tokens_basename hb, h] at hsplit
    have hdrop := congrArg List.dropLast hsplit
    rw [List.dropLast_concat, List.dropLast_append_of_ne_nil (by simp)] at hdrop
    exact ⟨_, hdrop⟩

end Ramfs

namespace Vfs

inductive Asks (v : Vfs) (root : ℕ) (ts : List CString) : List (List CString) → Prop
  | none {cs : List CString} {t : CString} (hts : ts = cs ++ [t]) (h : Missing v root cs t) :
      Asks v root ts []
  | one {cs us : List CString} {t u : CString} (hts : ts = cs ++ t :: u :: us)
      (h : Missing v root cs t) (hend : cs ≠ [] ∨ us = []) : Asks v root ts [cs ++ [t]]
  | two {us : List CString} {t u x : CString} (hts : ts = t :: u :: x :: us)
      (h : Missing v root [] t) : Asks v root ts [[t], [t, u]]
  | null (hts : ts = []) (h : Missing v root [] nullString) : Asks v root ts []

/-- `vfs_create` makes a file node with this inode. -/
def Takes (v : Vfs) (root : ℕ) (rel : CString) (idx : ℕ) : Prop :=
  ∃ asked, Asks v root (Ramfs.components rel) asked ∧ (∀ k ≤ asked.length, Memory v k) ∧
    Ramfs.SlotFor v.ramfs rel asked idx

section Slots

variable {v w : Vfs} {root fs current : ℕ} {rel t u : CString} {cs us : List CString}
  {child : Option ℕ}

lemma DirMade.slotFor (hd : DirMade v w root fs current cs t child) (hs : Ramfs.Sound v.ramfs.inodes)
    (hts : Ramfs.components rel = cs ++ t :: u :: us) {asked : List (List CString)} {idx : ℕ}
    (hlen : ∀ ks ∈ asked, cs.length + 1 < ks.length) (h : Ramfs.SlotFor w.ramfs rel asked idx) :
    Ramfs.SlotFor v.ramfs rel ((cs ++ [t]) :: asked) idx := by
  obtain ⟨hwcs, hwt, _, hjoin⟩ := dir_words hts
  have hpre : cs ++ [t] <+: Ramfs.components (Ramfs.splitPath rel).1 :=
    Ramfs.prefix_dirname (by rw [hts, List.append_cons])
  have hnot : cs ++ [t] ∉ asked := by
    intro hmem
    have := hlen _ hmem
    simp at this
  have hthere : w.ramfs.entry (cs ++ [t]) = some .dir := by
    rcases h.dirs _ hpre with hdir | ⟨_, hmem⟩
    · exact hdir
    · exact absurd hmem hnot
  rcases hd.ramfs with ⟨hroom, he, _, hfree⟩ | ⟨_, hsame⟩
  · have habsent := ((room_join hs hwcs hwt hjoin.le).mp hroom).2.1
    have hshort : t.take 31 = t := List.take_of_length_le
      (Ramfs.entry_names (cs ++ [t]) (by rw [hthere]; simp) t (by simp))
    rw [hshort] at he
    have hcount : asked.countP (fun ks => (w.ramfs.entry ks).isNone) =
        asked.countP fun ks => (v.ramfs.entry ks).isNone := by rw [he, countP_gain hnot]
    refine ⟨fun ks hks => ?_, ?_, ?_⟩
    · by_cases heq : ks = cs ++ [t]
      · exact .inr ⟨by rw [heq, habsent], by rw [heq]; exact List.mem_cons_self⟩
      · have hback : w.ramfs.entry ks = v.ramfs.entry ks := by rw [he, gain_of_ne heq]
        rw [← hback]
        exact (h.dirs ks hks).imp_right fun hlater => ⟨hlater.1, List.mem_cons_of_mem _ hlater.2⟩
    · exact gain_eq_none (he ▸ h.absent)
    · rw [List.countP_cons, habsent, Option.isNone_none, if_pos rfl, ← hcount]
      exact hfree _ _ h.slot
  · have he := Ramfs.entry_congr hsame
    refine ⟨fun ks hks => ?_, by rw [← he]; exact h.absent, ?_⟩
    · rw [← he]
      exact (h.dirs ks hks).imp_right fun hlater => ⟨hlater.1, List.mem_cons_of_mem _ hlater.2⟩
    · rw [List.countP_cons, ← he, hthere, Option.isNone_some, if_neg Bool.false_ne_true, Nat.add_zero,
        ← hsame]
      exact h.slot

lemma create_stages (h : Ready v root fs) {path : CString} {fd : Option ℕ}
    (he : v.vfsCreate path = some (fd, w)) :
    (fd = none ∧ DirsOnly v w root) ∨
      ∃ x current t, Ready x root fs ∧ current < x.ramfs.heap.calls ∧ DirsOnly v x root ∧
        (∀ p idx, target (links x current) t = none → Ramfs.Enters x.ramfs.inodes (relOf path) p idx →
          Memory x 0 → path.head? = some slash ∧ Takes v root (relOf path) idx) ∧
        createFile x (rootMount root fs) current (relOf path) (some t) = (fd, w) := by
  by_cases hp : path.head? = some slash
  · by_cases hts : Ramfs.components (relOf path) = []
    · rw [h.mounted.create_null hp hts] at he
      refine .inr ⟨v.setCursor (some ⟨.vfsCreate, []⟩), root, nullString, h.cursor _, h.rooted.root_lt,
        .of_nodes rfl rfl, fun p idx hnone hroom hm => ⟨hp, [], ?_, fun k hk => ?_,
          Ramfs.Enters.slotFor (r := v.ramfs) hroom h.sound⟩, Option.some.inj he⟩
      · exact .null hts (missing_of_target (walk_nil (links v) root) hnone)
      · rw [List.length_nil, Nat.le_zero] at hk
        subst hk
        exact hm
    · have hends := h.create_cases hp hts
      generalize v.vfsCreate path = res at hends he
      cases hends with
      | found next hts' hw =>
        refine .inr ⟨v.setCursor next, _, _, h.cursor next, h.rooted.walk_lt hw, .of_nodes rfl rfl,
          fun p idx hnone hroom hm => ⟨hp, [], ?_, fun k hk => ?_,
            Ramfs.Enters.slotFor (r := v.ramfs) hroom h.sound⟩, Option.some.inj he⟩
        · exact .none hts' (missing_of_target hw hnone)
        · rw [List.length_nil, Nat.le_zero] at hk
          subst hk
          exact hm
      | failed _ _ _ _ hdirs =>
        cases he
        exact .inl ⟨rfl, hdirs⟩
      | @made cs us t u node child x next hts' hw habsent hend hmade hdirs hlt =>
        refine .inr ⟨x.setCursor next, child, u, hmade.ready.cursor next, hlt,
          hdirs.trans (.of_nodes rfl rfl), fun p idx _ hroom hm => ⟨hp, [cs ++ [t]],
            .one hts' (missing_of_target hw habsent) hend, fun k hk => ?_, ?_⟩, Option.some.inj he⟩
        · have hm0 := (hmade.made child rfl).1
          have hm1 := (hmade.memory 0).mp hm
          rw [List.length_singleton] at hk
          rcases (show k = 0 ∨ k = 1 by omega) with rfl | rfl
          · exact hm0
          · exact hm1
        · exact hmade.slotFor h.sound hts' (by simp)
            (Ramfs.Enters.slotFor (r := x.ramfs) hroom hmade.ready.sound)
      | lost => cases he
      | failedTwice _ _ _ hdirs _ hdirs' =>
        cases he
        exact .inl ⟨rfl, hdirs.trans hdirs'⟩
      | @madeTwice us t u x child child' y z next hts' habsent hmade hdirs hmade' hdirs' hlt =>
        refine .inr ⟨z.setCursor next, child', x, hmade'.ready.cursor next, hlt,
          (hdirs.trans hdirs').trans (.of_nodes rfl rfl), fun p idx _ hroom hm => ⟨hp, [[t], [t, u]],
            .two hts' (missing_of_target rfl habsent), fun k hk => ?_, ?_⟩, Option.some.inj he⟩
        · have hm0 := (hmade.made child rfl).1
          have hm1 := (hmade.memory 0).mp (hmade'.made child' rfl).1
          have hm2 := (hmade.memory 1).mp ((hmade'.memory 0).mp hm)
          simp only [List.length_cons, List.length_nil] at hk
          rcases (show k = 0 ∨ k = 1 ∨ k = 2 by omega) with rfl | rfl | rfl
          · exact hm0
          · exact hm1
          · exact hm2
        · have hbelow := hmade'.slotFor hmade.ready.sound (show _ = [t] ++ u :: x :: us from hts')
            (by simp) (Ramfs.Enters.slotFor (r := z.ramfs) hroom hmade'.ready.sound)
          exact hmade.slotFor h.sound (show _ = [] ++ t :: u :: x :: us from hts') (by simp) hbelow
  · rw [create_of_not_absolute hp] at he
    cases he
    exact .inl ⟨rfl, .of_nodes rfl rfl⟩

end Slots

structure NewFile (v w : Vfs) (root b : ℕ) : Prop where
  fresh : ¬ IsNode v root b
  node : IsNode w root b
  file : (w.nodes b).type = .file

structure FileMade (v w : Vfs) (root : ℕ) (path : CString) (b : ℕ) : Prop where
  kept : Kept v w root
  made : NewFile v w root b
  takes : path.head? = some slash ∧ Takes v root (relOf path) (w.nodes b).fsFd
  new : ∀ i, IsNode w root i → IsNode v root i ∨ (w.nodes i).type = .dir ∨ i = b

structure Separate (v : Vfs) (root fs : ℕ) : Prop where
  ready : Ready v root fs
  distinct : ∀ i j, IsNode v root i → IsNode v root j → (v.nodes i).type = .file →
    (v.nodes j).type = .file → (v.nodes i).fsFd = (v.nodes j).fsFd → i = j
  descriptor : ∀ fd, v.isOpen fd = true → ∃ i, (v.files fd).node = some i ∧ IsNode v root i

structure Turn (v w : Vfs) (root : ℕ) (l : Op × Result) : Prop where
  kept : Kept v w root
  held : ∀ fd, l.1 ≠ .close fd → v.isOpen fd = true →
    w.isOpen fd = true ∧ (w.files fd).node = (v.files fd).node
  created : ∀ path fd, l = (.create path, .fd (some fd)) → w.isOpen fd = true ∧
    ∃ b, NewFile v w root b ∧ (w.files fd).node = some b
  opened : ∀ path fd, l = (.open path, .fd (some fd)) → w.isOpen fd = true ∧
    ∃ i, (v.vfsResolve path).1 = some i ∧ (w.files fd).node = some i

/-- A file that `vfs_create` makes does not take the inode of a node that is already there. -/
def FreshSlot (v : Vfs) (root : ℕ) : Op → Prop
  | .create path => path.head? = some slash → ∀ idx i, Takes v root (relOf path) idx →
    IsNode v root i → (v.nodes i).type = .file → (v.nodes i).fsFd ≠ idx
  | _ => True

section Turn

variable {v w : Vfs} {root fs : ℕ}

lemma NewNode.fileMade {x y : Vfs} {path : CString} {current idx : ℕ} {n : VfsNode}
    (hdirs : DirsOnly v x root) (hx : Ready x root fs) (hc : current < x.ramfs.heap.calls)
    (hheap : (x.ramfs.ramfsCreate (relOf path)).2.heap = x.ramfs.heap)
    (hnew : NewNode { x with ramfs := (x.ramfs.ramfsCreate (relOf path)).2 } y current n)
    (hn : n.children = []) (ht : n.type = .file) (hidx : n.fsFd = idx)
    (habs : path.head? = some slash) (htakes : Takes v root (relOf path) idx) :
    FileMade v y root path x.ramfs.heap.calls ∧ y.files = v.files := by
  have hrooted := (hx.create (relOf path)).rooted
  have hkept := hnew.kept hrooted (by rw [hheap]; exact hc) hn
  have hself := hnew.self
  have hparent := hnew.parent
  simp only [hheap] at hself hparent
  have hsame : Kept x { x with ramfs := (x.ramfs.ramfsCreate (relOf path)).2 } root := .of_nodes rfl
  refine ⟨⟨(hdirs.kept.trans hsame).trans hkept, ⟨fun hi => ?_, .inr ⟨current, ?_⟩, ?_⟩, ⟨habs, ?_⟩,
    fun i hi => ?_⟩, hnew.files.trans hdirs.files⟩
  · exact lt_irrefl _ (hx.rooted.isNode_lt (hdirs.kept.node _ hi).1)
  · rw [hparent]
    simp
  · rw [hself, ht]
  · rw [hself, hidx]
    exact htakes
  · rcases hnew.isNode hrooted hn hi with hi | hi
    · rcases hdirs.new i hi with hold | hdir
      · exact .inl hold
      · exact .inr (.inl ((hkept.node i hi).2.1.trans hdir))
    · simp only [hheap] at hi
      exact .inr (.inr hi)

lemma FileMade.setFile {path : CString} {b fd : ℕ} {f : VfsFile} (h : FileMade v w root path b) :
    FileMade v (w.setFile fd f) root path b :=
  ⟨h.kept.trans (.of_nodes rfl), ⟨h.made.fresh, h.made.node, h.made.file⟩, h.takes, h.new⟩

lemma create_files (h : Ready v root fs) {path : CString} {fd : Option ℕ}
    (he : v.vfsCreate path = some (fd, w)) :
    (fd = none ∧ DirsOnly v w root) ∨ ∃ b, FileMade v w root path b ∧
      (fd = none ∧ w.files = v.files ∨ ∃ g, fd = some g ∧ FreeFd v g ∧
        w.files = Function.update v.files g ⟨some b, 0, true⟩) := by
  rcases create_stages h he with hnone | ⟨x, current, t, hx, hc, hdirs, htakes, hfile⟩
  · exact .inl hnone
  · have hheap := (Ramfs.create_cases hx.sound (relOf path)).1
    have hslot : ∀ idx, target (links x current) t = none →
        (x.ramfs.ramfsCreate (relOf path)).1 = some idx →
        x.ramfs.heap.outcome x.ramfs.heap.calls ≠ none →
        path.head? = some slash ∧ Takes v root (relOf path) idx := by
      intro idx habsent hres hout
      rcases (Ramfs.create_cases hx.sound (relOf path)).2 with ⟨hnone, _⟩ | ⟨p, i, hroom, hsome, _⟩
      · rw [hnone] at hres
        cases hres
      · rw [hsome] at hres
        cases hres
        exact htakes p idx habsent hroom hout
    have hends := createFile_ends hx.sound (rootMount root fs) hc (relOf path) t
    rw [hfile] at hends
    cases hends with
    | taken => exact .inl ⟨rfl, hdirs⟩
    | refused => exact .inl ⟨rfl, hdirs.trans (.of_nodes rfl rfl)⟩
    | noMemory => exact .inl ⟨rfl, hdirs.trans (.of_nodes rfl rfl)⟩
    | @noDescriptor idx _ habsent hres hout hnew =>
      obtain ⟨habs, ht⟩ := hslot idx habsent hres hout
      obtain ⟨hmade, hfiles⟩ := hnew.fileMade hdirs hx hc hheap rfl rfl rfl habs ht
      exact .inr ⟨_, hmade, .inl ⟨rfl, hfiles⟩⟩
    | @opened idx g y habsent hres hout hnew hfd =>
      obtain ⟨habs, ht⟩ := hslot idx habsent hres hout
      obtain ⟨hmade, hfiles⟩ := hnew.fileMade hdirs hx hc hheap rfl rfl rfl habs ht
      rw [FreeFd, hdirs.files] at hfd
      refine .inr ⟨_, hmade.setFile, .inr ⟨g, rfl, hfd, ?_⟩⟩
      rw [setFile, hfiles]

lemma Separate.extend (h : Separate v root fs) (hw : Ready w root fs) (hk : Kept v w root)
    (hnew : ∀ i, IsNode w root i → IsNode v root i ∨ (w.nodes i).type = .dir ∨
      ∀ j, IsNode w root j → (w.nodes j).type = .file → (w.nodes i).fsFd = (w.nodes j).fsFd → i = j)
    (hfd : ∀ fd, w.isOpen fd = true → ∃ i, (w.files fd).node = some i ∧ IsNode w root i) :
    Separate w root fs := by
  refine ⟨hw, fun i j hi hj hti htj he => ?_, hfd⟩
  rcases hnew i hi with hiv | hdir | hown
  · rcases hnew j hj with hjv | hdir | hown
    · obtain ⟨_, htypei, hfsi⟩ := hk.node i hiv
      obtain ⟨_, htypej, hfsj⟩ := hk.node j hjv
      exact h.distinct i j hiv hjv (htypei.symm.trans hti) (htypej.symm.trans htj)
        (hfsi.symm.trans (he.trans hfsj))
    · rw [hdir] at htj
      cases htj
    · exact (hown i hi hti he.symm).symm
  · rw [hdir] at hti
    cases hti
  · exact hown j hj htj he

lemma Separate.quiet (h : Separate v root fs) {l : Op × Result} (hs : Step v l w)
    (hl : ∀ path, l.1 ≠ .create path) : Turn v w root l ∧ Separate w root fs := by
  have hquiet := quiet_step hs hl
  have hkept : Kept v w root := .of_nodes hquiet.nodes
  have hnode : ∀ i, IsNode w root i ↔ IsNode v root i := fun i => by rw [IsNode, hquiet.nodes, ← IsNode]
  refine ⟨⟨hkept, fun fd hclose hopen => ?_, fun path fd he => ?_, fun path fd he => ?_⟩,
    h.extend (h.ready.step hs) hkept (fun i hi => .inl ((hnode i).mp hi)) fun fd hopen => ?_⟩
  · rcases hquiet.descriptor fd with ⟨hsame, hn⟩ | ⟨hc, _⟩ | ⟨path, rfl⟩
    · exact ⟨hsame.trans hopen, hn⟩
    · exact absurd hc hclose
    · have hfree := (hquiet.opened path fd rfl).1
      simp [isOpen, hfree.2.1] at hopen
  · exact absurd (congrArg Prod.fst he) (hl path)
  · obtain ⟨_, hopen, hi⟩ := hquiet.opened path fd he
    exact ⟨hopen, hi⟩
  · rcases hquiet.descriptor fd with ⟨hsame, hn⟩ | ⟨_, hc⟩ | ⟨path, rfl⟩
    · obtain ⟨i, hi, hv⟩ := h.descriptor fd (hsame.symm.trans hopen)
      exact ⟨i, hn.trans hi, (hnode i).mpr hv⟩
    · rw [hc] at hopen
      cases hopen
    · obtain ⟨_, _, i, hi, hn⟩ := hquiet.opened path fd rfl
      refine ⟨i, hn, (hnode i).mpr ?_⟩
      by_cases hp : path.head? = some slash
      · rw [h.ready.mounted.resolve_eq hp] at hi
        exact isNode_of_walk hi
      · rw [resolve_of_not_absolute hp] at hi
        cases hi

section NewDescriptor

variable {fd : Option ℕ} {b : ℕ}
  (hfiles : fd = none ∧ w.files = v.files ∨ ∃ g, fd = some g ∧ FreeFd v g ∧
    w.files = Function.update v.files g ⟨some b, 0, true⟩)
include hfiles

lemma held_of_files {i : ℕ} (hopen : v.isOpen i = true) :
    w.isOpen i = true ∧ (w.files i).node = (v.files i).node := by
  rcases hfiles with ⟨_, hf⟩ | ⟨g, _, hfree, hf⟩
  · rw [isOpen, hf, ← isOpen]
    exact ⟨hopen, rfl⟩
  · have hne : i ≠ g := by
      rintro rfl
      simp [isOpen, hfree.2.1] at hopen
    rw [isOpen, hf, Function.update_of_ne hne, ← isOpen]
    exact ⟨hopen, rfl⟩

lemma created_of_files {g : ℕ} (hg : fd = some g) : w.isOpen g = true ∧ (w.files g).node = some b := by
  rcases hfiles with ⟨hnone, _⟩ | ⟨g', hg', hfree, hf⟩
  · rw [hg] at hnone
    cases hnone
  · rw [hg] at hg'
    cases hg'
    simp [isOpen, hf, hfree.1]

lemma opened_of_files {i : ℕ} (hold : v.isOpen i = false) (hopen : w.isOpen i = true) : fd = some i := by
  rcases hfiles with ⟨_, hf⟩ | ⟨g, hg, _, hf⟩
  · rw [isOpen, hf, ← isOpen, hold] at hopen
    cases hopen
  · by_cases hig : i = g
    · rw [hig]
      exact hg
    · rw [isOpen, hf, Function.update_of_ne hig, ← isOpen, hold] at hopen
      cases hopen

end NewDescriptor

lemma FileMade.own {path : CString} {b : ℕ} (hmade : FileMade v w root path b)
    (hfresh : FreshSlot v root (.create path)) {j : ℕ} (hj : IsNode w root j)
    (ht : (w.nodes j).type = .file) (hsame : (w.nodes b).fsFd = (w.nodes j).fsFd) : b = j := by
  rcases hmade.new j hj with hold | hdir | rfl
  · obtain ⟨_, htype, hfs⟩ := hmade.kept.node j hold
    exact absurd (hfs.symm.trans hsame.symm)
      (hfresh hmade.takes.1 _ j hmade.takes.2 hold (htype.symm.trans ht))
  · rw [hdir] at ht
    cases ht
  · rfl

lemma Separate.create (h : Separate v root fs) {path : CString} {fd : Option ℕ}
    (hfresh : FreshSlot v root (.create path)) (he : v.vfsCreate path = some (fd, w)) :
    Turn v w root (.create path, .fd fd) ∧ Separate w root fs := by
  have hready := h.ready.vfsCreate he
  rcases create_files h.ready he with ⟨rfl, hdirs⟩ | ⟨b, hmade, hfiles⟩
  · refine ⟨⟨hdirs.kept, fun fd _ hopen => ?_, fun _ _ hl => by simp at hl, fun _ _ hl => by simp at hl⟩,
      h.extend hready hdirs.kept (fun i hi => (hdirs.new i hi).imp_right .inl) fun fd hopen => ?_⟩
    · rw [isOpen, hdirs.files, ← isOpen]
      exact ⟨hopen, rfl⟩
    · rw [isOpen, hdirs.files, ← isOpen] at hopen
      rw [hdirs.files]
      obtain ⟨i, hn, hi⟩ := h.descriptor fd hopen
      exact ⟨i, hn, (hdirs.kept.node i hi).1⟩
  · have hnew : ∀ i, IsNode w root i → IsNode v root i ∨ (w.nodes i).type = .dir ∨
        ∀ j, IsNode w root j → (w.nodes j).type = .file → (w.nodes i).fsFd = (w.nodes j).fsFd →
          i = j := by
      intro i hi
      rcases hmade.new i hi with hold | hdir | rfl
      · exact .inl hold
      · exact .inr (.inl hdir)
      · exact .inr (.inr fun j hj ht hsame => hmade.own hfresh hj ht hsame)
    refine ⟨⟨hmade.kept, fun i _ hopen => held_of_files hfiles hopen, fun path' g hl => ?_,
      fun _ _ hl => by simp at hl⟩, h.extend hready hmade.kept hnew fun i hopen => ?_⟩
    · simp only [Prod.mk.injEq, Result.fd.injEq] at hl
      obtain ⟨hopen, hn⟩ := created_of_files hfiles hl.2
      exact ⟨hopen, b, hmade.made, hn⟩
    · cases hold : v.isOpen i with
      | true =>
        obtain ⟨j, hn, hj⟩ := h.descriptor i hold
        exact ⟨j, (held_of_files hfiles hold).2.trans hn, (hmade.kept.node j hj).1⟩
      | false =>
        have hi := opened_of_files hfiles hold hopen
        exact ⟨b, (created_of_files hfiles hi).2, hmade.made.node⟩

lemma Separate.step (h : Separate v root fs) {l : Op × Result} (hfresh : FreshSlot v root l.1)
    (hs : Step v l w) : Turn v w root l ∧ Separate w root fs := by
  rcases step_cases hs with ⟨path, fd, rfl, hc⟩ | hl
  · exact h.create hfresh hc
  · exact h.quiet hs hl

lemma Booted.separate {v : Vfs} (h : Booted v) : Separate v 0 0 := by
  have hsim := h.simulates
  refine ⟨hsim.ready, hsim.attached.distinct, fun fd hopen => ?_⟩
  obtain ⟨i, hn, hi, _⟩ := hsim.attached.descriptor fd hopen
  exact ⟨i, hn, hi⟩

/-- What is read through the descriptor does not depend on the contents of that file, and what is
written does not change them. -/
structure Isolated (v : Vfs) (fd b : ℕ) : Prop where
  read : ∀ {r c n bs bs' x y}, Ramfs.Written v.ramfs r (v.nodes b).fsFd c →
    v.vfsRead fd n = some (bs, x) → vfsRead { v with ramfs := r } fd n = some (bs', y) → bs = bs'
  write : ∀ {buf n w}, v.vfsWrite fd buf = some (n, w) → v.ramfs.isOpenFile (v.nodes b).fsFd = true →
    w.ramfs.contents (v.nodes b).fsFd = v.ramfs.contents (v.nodes b).fsFd

lemma read_bytes {fd i n : ℕ} {bs : List UInt8} (hs : Ramfs.Storage v.ramfs)
    (hn : (v.files fd).node = some i) (h : v.vfsRead fd n = some (bs, w)) :
    bs = if v.isOpen fd = true ∧ v.ramfs.isOpenFile (v.nodes i).fsFd = true then
      ((v.ramfs.contents (v.nodes i).fsFd).drop (v.files fd).offset).take n else [] := by
  cases hopen : v.isOpen fd with
  | false =>
    rw [vfsRead, if_pos hopen] at h
    cases h
    simp
  | true =>
    simp only [vfsRead, hopen, Bool.true_eq_false, if_false] at h
    obtain ⟨node, hnode, h⟩ := Option.bind_eq_some_iff.mp h
    obtain ⟨⟨bs', offset⟩, hread, he⟩ := Option.map_eq_some_iff.mp h
    cases he
    rw [fileNode, hn, Option.bind_some] at hnode
    split at hnode
    · cases hnode
      cases hfile : v.ramfs.isOpenFile (v.nodes i).fsFd with
      | true =>
        rw [hs.read hfile] at hread
        cases hread
        simp
      | false =>
        rw [Ramfs.ramfsRead, if_pos (.inl hfile)] at hread
        cases hread
        simp
    · cases hnode

lemma Isolated.of_ne (hs : Ramfs.Storage v.ramfs) {fd a b : ℕ} (hn : (v.files fd).node = some a)
    (hne : (v.nodes a).fsFd ≠ (v.nodes b).fsFd) : Isolated v fd b where
  read {r c n bs bs' x y} hw hr hr' := by
    rw [read_bytes hs hn hr, read_bytes (v := { v with ramfs := r }) hw.storage hn hr']
    have hfile : r.isOpenFile (v.nodes a).fsFd = v.ramfs.isOpenFile (v.nodes a).fsFd := by
      obtain ⟨hu, ht, _⟩ := hw.sameTree (v.nodes a).fsFd
      rw [Ramfs.isOpenFile, Ramfs.isOpenFile, hu, ht]
    simp only [hfile]
    by_cases hopen : v.isOpen fd = true ∧ v.ramfs.isOpenFile (v.nodes a).fsFd = true
    · rw [if_pos hopen, if_pos (show Vfs.isOpen { v with ramfs := r } fd = true ∧ _ from hopen),
        hw.other _ hne (Ramfs.isOpenFile_used hopen.2)]
    · rw [if_neg hopen, if_neg (show ¬ (Vfs.isOpen { v with ramfs := r } fd = true ∧ _) from hopen)]
  write {buf n w} hwrite hfile := by
    simp only [vfsWrite] at hwrite
    split at hwrite
    · cases hwrite
      rfl
    · obtain ⟨node, hnode, hwrite⟩ := Option.bind_eq_some_iff.mp hwrite
      obtain ⟨res, hres, he⟩ := Option.map_eq_some_iff.mp hwrite
      cases he
      rw [fileNode, hn, Option.bind_some] at hnode
      split at hnode
      · cases hnode
        cases hs.write_ends hres with
        | closed => rfl
        | failed => rfl
        | written _ _ hw => exact hw.other _ hne.symm (Ramfs.isOpenFile_used hfile)
      · cases hnode

end Turn

/-- The descriptor was returned for the path and has not been closed. -/
def Handed (ls : List (Op × Result)) (path : CString) (fd : ℕ) : Prop :=
  ∃ ks op ms, ls = ks ++ (op, .fd (some fd)) :: ms ∧ (op = .create path ∨ op = .open path) ∧
    ∀ l ∈ ms, l.1 ≠ .close fd

def OnFile (v : Vfs) (fd : ℕ) : Prop := ∃ i, (v.files fd).node = some i ∧ (v.nodes i).type = .file

section Runs

variable {u v w : Vfs} {root fs : ℕ} {ls : List (Op × Result)}

lemma Separate.run (h : Separate v root fs)
    (hrun : Run (Guarded (fun v l => FreshSlot v root l.1) Step) v ls w) :
    Separate w root fs ∧ Kept v w root ∧ ∀ fd, v.isOpen fd = true → (∀ l ∈ ls, l.1 ≠ .close fd) →
      w.isOpen fd = true ∧ (w.files fd).node = (v.files fd).node := by
  induction hrun with
  | nil v => exact ⟨h, .refl v root, fun _ hopen _ => ⟨hopen, rfl⟩⟩
  | cons hs _ ih =>
    obtain ⟨hturn, ht⟩ := h.step hs.1 hs.2
    obtain ⟨hw, hkept, hheld⟩ := ih ht
    refine ⟨hw, hturn.kept.trans hkept, fun fd hopen hclose => ?_⟩
    obtain ⟨hopen', hn⟩ := hturn.held fd (hclose _ List.mem_cons_self) hopen
    obtain ⟨hopen'', hn'⟩ := hheld fd hopen' fun l hl => hclose l (List.mem_cons_of_mem _ hl)
    exact ⟨hopen'', hn'.trans hn⟩

lemma Turn.handed {op : Op} {path : CString} {fd : ℕ} (h : Turn v w root (op, .fd (some fd)))
    (hw : Separate w root fs) (hop : op = .create path ∨ op = .open path) :
    w.isOpen fd = true ∧ ∃ i, (w.files fd).node = some i ∧ IsNode w root i ∧
      (¬ IsNode v root i ∨ (v.vfsResolve path).1 = some i) := by
  rcases hop with rfl | rfl
  · obtain ⟨hopen, i, hi, hn⟩ := h.created path fd rfl
    exact ⟨hopen, i, hn, hi.node, .inl hi.fresh⟩
  · obtain ⟨hopen, i, hi, hn⟩ := h.opened path fd rfl
    obtain ⟨j, hj, hnode⟩ := hw.descriptor fd hopen
    rw [hn] at hj
    cases hj
    exact ⟨hopen, i, hn, hnode, .inr hi⟩

lemma unlinked_walk (h : Ready v root fs) {path : CString} (hs : Step v (.unlink path, .status true) w) :
    path.head? = some slash ∧
      ∃ i, walk (links v) root (Ramfs.components (relOf path)) = some i := by
  obtain ⟨next, ⟨_, he⟩ | ⟨hp, hfound, _⟩⟩ := h.mounted.unlink_cases path
  · simp [Step, exec, he] at hs
  · rw [h.mounted.resolve_eq hp] at hfound
    exact ⟨hp, Option.ne_none_iff_exists'.mp hfound⟩

end Runs

section Isolation

variable {v₀ u v w : Vfs} {ls₁ ls₂ : List (Op × Result)} {A B : CString} {res : Result} {fd : ℕ}

lemma unlinked_kept {s : Vfs} (hs : Separate s 0 0)
    (hrun : Run (Guarded (fun v l => FreshSlot v 0 l.1) Step) s ls₁ u)
    (hunlink : (.unlink A, .status true) ∈ ls₁) :
    A.head? = some slash ∧ ∃ i, walk (links u) 0 (Ramfs.components (relOf A)) = some i := by
  obtain ⟨ks, ms, rfl⟩ := List.append_of_mem hunlink
  obtain ⟨x, hks, hms⟩ := hrun.split
  obtain ⟨hx, _, _⟩ := hs.run hks
  cases hms with
  | cons hl hms =>
    obtain ⟨hp, i, hi⟩ := unlinked_walk hx.ready hl.2
    obtain ⟨hturn, hy⟩ := hx.step hl.1 hl.2
    exact ⟨hp, i, (hy.run hms).2.1.walk _ _ (hturn.kept.walk _ _ hi)⟩

lemma handed_node {s : Vfs} (hs : Separate s 0 0)
    (h₁ : Run (Guarded (fun v l => FreshSlot v 0 l.1) Step) s ls₁ u)
    (hB : Guarded (fun v l => FreshSlot v 0 l.1) Step u (.create B, res) w)
    (h₂ : Run (Guarded (fun v l => FreshSlot v 0 l.1) Step) w ls₂ v) (hne : A ≠ B)
    (hunlink : (.unlink A, .status true) ∈ ls₁)
    (hd : Handed (ls₁ ++ (.create B, res) :: ls₂) A fd) {b : ℕ} (hb : NewFile u w 0 b) :
    ∃ a, (v.files fd).node = some a ∧ IsNode v 0 a ∧ a ≠ b := by
  obtain ⟨hu, _, _⟩ := hs.run h₁
  obtain ⟨hturn, hw⟩ := hu.step hB.1 hB.2
  obtain ⟨_, hkept, hheld⟩ := hw.run h₂
  obtain ⟨ks, op, ms, heq, hop, hclose⟩ := hd
  have hsame : (Op.create B, res) ≠ (op, .fd (some fd)) := by
    rintro he
    cases he
    rcases hop with he | he
    · cases he
      exact hne rfl
    · cases he
  rcases List.append_eq_append_iff.mp heq with ⟨xs, rfl, hxs⟩ | ⟨xs, rfl, hxs⟩
  · cases xs with
    | nil =>
      simp only [List.nil_append, List.cons.injEq] at hxs
      exact absurd hxs.1 hsame
    | cons l xs =>
      -- the descriptor was returned after the file was made
      simp only [List.cons_append, List.cons.injEq] at hxs
      obtain ⟨_, rfl⟩ := hxs
      obtain ⟨x, hxs, hms⟩ := h₂.split
      obtain ⟨hx, hwx, _⟩ := hw.run hxs
      cases hms with
      | cons hl hms =>
        obtain ⟨hturn', hy⟩ := hx.step hl.1 hl.2
        obtain ⟨hopen, a, hn, ha, hor⟩ := hturn'.handed hy hop
        obtain ⟨_, hyv, hheld'⟩ := hy.run hms
        refine ⟨a, (hheld' fd hopen hclose).2.trans hn, (hyv.node a ha).1, ?_⟩
        rintro rfl
        rcases hor with hfresh | hfound
        · exact hfresh (hwx.node a hb.node).1
        · obtain ⟨hp, i, hi⟩ := unlinked_kept hs h₁ hunlink
          rw [hx.ready.mounted.resolve_eq hp, hwx.walk _ _ (hturn.kept.walk _ _ hi)] at hfound
          cases hfound
          exact hb.fresh (isNode_of_walk hi)
  · cases xs with
    | nil =>
      simp only [List.nil_append, List.cons.injEq] at hxs
      exact absurd hxs.1.symm hsame
    | cons l xs =>
      -- the descriptor is older than the file
      simp only [List.cons_append, List.cons.injEq] at hxs
      obtain ⟨rfl, rfl⟩ := hxs
      obtain ⟨x, hks, hms⟩ := h₁.split
      obtain ⟨hx, _, _⟩ := hs.run hks
      cases hms with
      | cons hl hms =>
        obtain ⟨hturn', hy⟩ := hx.step hl.1 hl.2
        obtain ⟨hopen, a, hn, ha, _⟩ := hturn'.handed hy hop
        obtain ⟨_, hyu, hheld'⟩ := hy.run hms
        obtain ⟨hou, hnu⟩ := hheld' fd hopen fun l hl => hclose l (List.mem_append_left _ hl)
        obtain ⟨how, hnw⟩ := hturn.held fd (by simp) hou
        obtain ⟨_, hnv⟩ := hheld fd how fun l hl =>
          hclose l (List.mem_append_right _ (List.mem_cons_of_mem _ hl))
        have hau := (hyu.node a ha).1
        refine ⟨a, hnv.trans (hnw.trans (hnu.trans hn)), (hkept.node a (hturn.kept.node a hau).1).1, ?_⟩
        rintro rfl
        exact hb.fresh hau

/-- Where no file takes the inode of a node, the descriptors of a file that was unlinked have nothing to
do with the files made for other paths afterwards. -/
theorem isolated (hb : Booted v₀)
    (h₁ : Run (Guarded (fun v l => FreshSlot v 0 l.1) Step) v₀ ls₁ u)
    (hB : Guarded (fun v l => FreshSlot v 0 l.1) Step u (.create B, res) w)
    (h₂ : Run (Guarded (fun v l => FreshSlot v 0 l.1) Step) w ls₂ v) (hne : A ≠ B)
    (hunlink : (.unlink A, .status true) ∈ ls₁)
    (hd : Handed (ls₁ ++ (.create B, res) :: ls₂) A fd) (hfile : OnFile v fd) :
    (∀ b, NewFile u w 0 b → Isolated v fd b) ∧
      ∀ g, res = .fd (some g) → ∃ b, NewFile u w 0 b ∧ (w.files g).node = some b := by
  obtain ⟨hu, _, _⟩ := hb.separate.run h₁
  obtain ⟨hturn, hw⟩ := hu.step hB.1 hB.2
  obtain ⟨hv, hkept, _⟩ := hw.run h₂
  refine ⟨fun b hnew => ?_, fun g hg => ?_⟩
  · obtain ⟨a, hn, ha, hab⟩ := handed_node hb.separate h₁ hB h₂ hne hunlink hd hnew
    obtain ⟨a', hn', ht⟩ := hfile
    rw [hn] at hn'
    cases hn'
    obtain ⟨hbv, htb, _⟩ := hkept.node b hnew.node
    exact .of_ne hv.ready.storage hn fun hsame =>
      hab (hv.distinct a b ha hbv ht (htb.trans hnew.file) hsame)
  · exact (hturn.created B g (by rw [hg])).2

end Isolation

def replaced : List (Op × Result) :=
  [(.create (cstring "/a"), .fd (some 0)), (.unlink (cstring "/a"), .status true),
    (.mkdir (cstring "/d"), .status true)]

lemma freshSlot_replaced :
    FreshSlot ((replaced.map Prod.fst).foldl next bootedZero) 0 (.create (cstring "/b")) := by
  intro _ idx i ⟨asked, _, _, hslot⟩ hi ht he
  have hcreate : bootedZero.vfsCreate (cstring "/a") =
      some (some 0, bootedZero.next (.create (cstring "/a"))) := rfl
  have hnodes : ((replaced.map Prod.fst).foldl next bootedZero).nodes =
      (bootedZero.next (.create (cstring "/a"))).nodes := rfl
  rcases create_files bootedZero_booted.ready hcreate with ⟨hnone, _⟩ | ⟨b, hmade, hfiles⟩
  · cases hnone
  · rcases hfiles with ⟨hnone, _⟩ | ⟨g, hg, _, hfiles⟩
    · cases hnone
    · cases hg
      have hb : ((bootedZero.next (.create (cstring "/a"))).files 0).node = some b := by
        rw [hfiles, Function.update_self]
      cases hb
      rw [IsNode, hnodes, ← IsNode] at hi
      rw [hnodes] at ht he
      rcases hmade.new i hi with hold | hdir | rfl
      · exact bootedZero_booted.not_file hold ((hmade.kept.node i hold).2.1.symm.trans ht)
      · rw [hdir] at ht
        cases ht
      · cases he
        cases hslot.slot.2.1

theorem isolated_replaced : ∃ v, (∀ b, NewFile ((replaced.map Prod.fst).foldl next bootedZero) v 0 b →
      Isolated v 0 b) ∧ ∀ g, Result.fd (some 1) = .fd (some g) →
        ∃ b, NewFile ((replaced.map Prod.fst).foldl next bootedZero) v 0 b ∧ (v.files g).node = some b := by
  have h₁ : Run (Guarded (fun v l => FreshSlot v 0 l.1) Step) bootedZero replaced
      ((replaced.map Prod.fst).foldl next bootedZero) :=
    .cons ⟨fun _ idx i _ hi ht => absurd ht (bootedZero_booted.not_file hi), step_next rfl⟩ <|
    .cons ⟨trivial, step_next rfl⟩ <| .cons ⟨trivial, step_next rfl⟩ (.nil _)
  have hB : Guarded (fun v l => FreshSlot v 0 l.1) Step ((replaced.map Prod.fst).foldl next bootedZero)
      (.create (cstring "/b"), .fd (some 1))
      (((replaced.map Prod.fst).foldl next bootedZero).next (.create (cstring "/b"))) :=
    ⟨freshSlot_replaced, step_next rfl⟩
  exact ⟨_, isolated (A := cstring "/a") bootedZero_booted h₁ hB (.nil _) (by decide)
    (List.mem_cons_of_mem _ List.mem_cons_self)
    ⟨[], _, _, rfl, .inl rfl, by simp⟩ ⟨1, rfl, rfl⟩⟩

theorem reused_slot :
    Booted bootedZero ∧ ∃ u w v,
      Run Step bootedZero [(.create (cstring "/a"), .fd (some 0)),
        (.unlink (cstring "/a"), .status true)] u ∧
      Step u (.create (cstring "/b"), .fd (some 1)) w ∧ Run Step w [(.write 1 [7], .count 1)] v ∧
      OnFile v 0 ∧ NewFile u w 0 2 ∧ (v.vfsRead 0 1).map Prod.fst = some [7] ∧ ¬ Isolated v 0 2 := by
  have hready : Ready ((bootedZero.next (.create (cstring "/a"))).next (.unlink (cstring "/a"))) 0 0 :=
    ready_of_run bootedZero_booted (.cons (step_next rfl) (.cons (step_next rfl) (.nil _)))
  refine ⟨bootedZero_booted, _, _, _, .cons (step_next rfl) (.cons (step_next rfl) (.nil _)),
    step_next rfl, .cons (step_next rfl) (.nil _), ⟨1, rfl, rfl⟩, ⟨fun hi => ?_, .inr ⟨0, ?_⟩, rfl⟩, rfl,
    fun hiso => ?_⟩
  · exact absurd (hready.rooted.isNode_lt hi) (by decide)
  · exact List.mem_cons_of_mem _ List.mem_cons_self
  · have hsame := hiso.write (show vfsWrite _ 0 [5] = some (1, _) from rfl) rfl
    revert hsame
    decide

end Vfs

end Veni.Filesystem
