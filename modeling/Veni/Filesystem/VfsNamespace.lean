import Veni.Filesystem.VfsEnds
import Veni.Lib.Transition

/-! When the VFS and the RAM file system have the same names, and which calls keep it so. -/

namespace Veni.Filesystem

open Veni.Libc Veni.Lib.Tokens Veni.Lib.NameGraph Veni.Lib.Transition

/-- The components of an absolute path of at most 255 characters. -/
def Visible (ns : List CString) : Prop := (∀ c ∈ ns, IsComponent c) ∧ (join slash ns).length < 255

lemma Visible.of_prefix {ms ns : List CString} (h : Visible ns) (hp : ms <+: ns) : Visible ms := by
  obtain ⟨ks, rfl⟩ := hp
  exact ⟨fun c hc => h.1 c (List.mem_append_left _ hc),
    (length_join_le_append slash ms ks).trans_lt h.2⟩

lemma not_visible_of_nil {ns : List CString} : ¬ Visible (ns ++ [[]]) := fun h =>
  (h.1 [] (by simp)).1.1 rfl

lemma isComponent_take {c : CString} (h : IsWord isSlash c) : IsComponent (c.take 31) := by
  refine ⟨⟨?_, fun x hx => h.2 x (List.mem_of_mem_take hx)⟩, List.length_take_le 31 c⟩
  simp [h.1]

namespace Vfs

def Agree (v : Vfs) (root : ℕ) : Prop := ∀ ns, Visible ns → v.entry root ns = v.ramfs.entry ns

def Hidden (v : Vfs) (root : ℕ) (ns : List CString) : Prop := Visible ns → v.entry root ns ≠ none

/-- What `vfs_create` makes in one tree is made in the other, or is not seen. -/
structure MakesBoth (v : Vfs) (root : ℕ) (rel : CString) : Prop where
  file : v.ramfs.Room rel → Memory v 0 ∨ Hidden v root (Ramfs.entered rel)
  dir : ∀ cs t u us, Ramfs.components rel = cs ++ t :: u :: us → Missing v root cs t →
    Hidden v root (cs ++ [t.take 31]) ∨ (v.ramfs.entry cs = some .dir ∧ 0 < v.slots ↔ Memory v 0)
  dirFile : ∀ cs t u, Ramfs.components rel = cs ++ [t, u] → (Ramfs.splitPath rel).2 ≠ [] →
    Missing v root cs t → v.ramfs.entry cs = some .dir → t.length ≤ 31 → 1 < v.slots → Memory v 0 →
    Memory v 1 ∨ ¬ Visible (cs ++ [t, u.take 31])
  dirDir : ∀ t u x us, Ramfs.components rel = t :: u :: x :: us → Missing v root [] t → Memory v 0 →
    Hidden v root [t.take 31] ∨ (t.length ≤ 31 ∧ 1 < v.slots ↔ Memory v 1)
  dirDirFile : ∀ t u x, Ramfs.components rel = [t, u, x] → (Ramfs.splitPath rel).2 ≠ [] →
    Missing v root [] t → t.length ≤ 31 → u.length ≤ 31 → 2 < v.slots → Memory v 0 → Memory v 1 →
    Memory v 2 ∨ ¬ Visible [t, u, x.take 31]
  nameless : Ramfs.components rel = [] → v.ramfs.Room rel → Memory v 0 →
    v.entry root [nullString] ≠ none

section Agree

variable {v w : Vfs} {root fs : ℕ}

lemma Agree.congr (h : Agree v root) (hn : w.nodes = v.nodes)
    (hr : w.ramfs.inodes = v.ramfs.inodes) : Agree w root := by
  intro ns hns
  rw [entry_congr hn, Ramfs.entry_congr hr]
  exact h ns hns

lemma Agree.gain (h : Agree v root) {place : List CString} {e e' : Option Entry}
    (hv : w.entry root = gain (v.entry root) place e)
    (hr : w.ramfs.entry = Filesystem.gain v.ramfs.entry place e') (he : e = e' ∨ Hidden v root place) :
    Agree w root := by
  intro ns hns
  rw [hv, hr, Filesystem.gain, Filesystem.gain, ← h ns hns]
  by_cases hp : ns = place
  · subst hp
    rcases he with rfl | hhid
    · rfl
    · obtain ⟨x, hx⟩ := Option.ne_none_iff_exists'.mp (hhid hns)
      rw [hx, Option.some_or, Option.some_or]
  · rw [if_neg hp, if_neg hp]

lemma Agree.absent (h : Agree v root) {ns : List CString} (hw : ∀ c ∈ ns, IsWord isSlash c)
    (hlen : (join slash ns).length < 255) (hv : v.entry root ns = none) : v.ramfs.entry ns = none := by
  by_contra hne
  have hvis : Visible ns := ⟨fun c hc => ⟨hw c hc, Ramfs.entry_names ns hne c hc⟩, hlen⟩
  exact hne ((h ns hvis).symm.trans hv)

lemma Agree.present (h : Agree v root) {ns : List CString} (hw : ∀ c ∈ ns, IsWord isSlash c)
    (hlen : (join slash ns).length < 255) (hr : v.ramfs.entry ns ≠ none) : v.entry root ns ≠ none :=
  mt (h.absent hw hlen) hr

end Agree

section Directories

variable {v w : Vfs} {root fs current : ℕ} {cs : List CString} {t : CString} {child : Option ℕ}

lemma DirMade.place (hd : DirMade v w root fs current cs t child)
    (hcur : walk (links v) root cs = some current) :
    ∃ e, w.entry root = gain (v.entry root) (cs ++ [t.take 31]) e ∧
      (e = some .dir ∧ Memory v 0 ∨ e = none ∧ ¬ Memory v 0) := by
  cases child with
  | none =>
    obtain ⟨hm, hn⟩ := hd.failed rfl
    exact ⟨none, by rw [gain_none, entry_congr hn], .inr ⟨rfl, hm⟩⟩
  | some i =>
    obtain ⟨hm, _, _, hgain, _⟩ := hd.made i rfl
    exact ⟨some .dir, (hgain cs hcur).2, .inl ⟨rfl, hm⟩⟩

lemma DirMade.agree (hd : DirMade v w root fs current cs t child) (ha : Agree v root)
    (hcur : walk (links v) root cs = some current)
    (hboth : Hidden v root (cs ++ [t.take 31]) ∨ (v.ramfs.Room (join slash (cs ++ [t])) ↔ Memory v 0)) :
    Agree w root := by
  obtain ⟨e, he, hmem⟩ := hd.place hcur
  obtain ⟨e', he', hroom⟩ : ∃ e', w.ramfs.entry = gain v.ramfs.entry (cs ++ [t.take 31]) e' ∧
      (e' = some .dir ∧ v.ramfs.Room (join slash (cs ++ [t])) ∨
        e' = none ∧ ¬ v.ramfs.Room (join slash (cs ++ [t]))) := by
    rcases hd.ramfs with ⟨hroom, hr, _⟩ | ⟨hroom, hr⟩
    · exact ⟨_, hr, .inl ⟨rfl, hroom⟩⟩
    · exact ⟨none, by rw [gain_none, Ramfs.entry_congr hr], .inr ⟨rfl, hroom⟩⟩
  apply ha.gain he he'
  rcases hboth with hhid | hiff
  · exact .inr hhid
  · left
    rcases hmem with ⟨rfl, hm⟩ | ⟨rfl, hm⟩
    · rcases hroom with ⟨rfl, _⟩ | ⟨_, hno⟩
      · rfl
      · exact absurd (hiff.mpr hm) hno
    · rcases hroom with ⟨_, hr⟩ | ⟨rfl, _⟩
      · exact absurd (hiff.mp hr) hm
      · rfl

lemma DirMade.agree_of_same (hd : DirMade v w root fs current cs t child) (ha : Agree v root)
    (hv : w.entry root = v.entry root) (hroom : ¬ v.ramfs.Room (join slash (cs ++ [t]))) :
    Agree w root := by
  intro ns hns
  rcases hd.ramfs with ⟨hr, _⟩ | ⟨_, hr⟩
  · exact absurd hr hroom
  · rw [hv, Ramfs.entry_congr hr]
    exact ha ns hns

end Directories

section Files

variable {v w : Vfs} {root fs current : ℕ} {rel u : CString} {ps us : List CString}

lemma room_place (h : Ready v root fs) (ha : Agree v root)
    (hts : Ramfs.components rel = ps ++ u :: us) (hcur : ∀ i, walk (links v) root ps = some i → i = current)
    (habsent : target (links v current) u = none) (hroom : v.ramfs.Room rel) :
    us = [] ∧ Ramfs.components (Ramfs.splitPath rel).1 = ps ∧ (Ramfs.splitPath rel).2 = u ∧
      walk (links v) root ps = some current := by
  obtain ⟨hdir, _, _⟩ := (Ramfs.room_iff h.sound rel).mp hroom
  have hsplit := Ramfs.components_split rel
  have hnone : v.entry root (ps ++ [u]) = none := by
    rw [entry_eq_none, walk_concat]
    cases hp : walk (links v) root ps with
    | none => rfl
    | some i =>
      rw [Option.bind_some, hcur i hp]
      exact habsent
  have hword : ∀ c ∈ ps ++ [u], IsWord isSlash c := fun c hc => components_word (p := rel) (by
    rw [hts, List.append_cons]
    exact List.mem_append_left _ hc)
  have hlen : ∀ ks ls, Ramfs.components (Ramfs.splitPath rel).1 = ks ++ ls →
      (join slash ks).length < 255 := by
    intro ks ls hks
    have hle := length_join_tokens_le isSlash slash ((Ramfs.splitPath rel).1.take 255)
    rw [← Ramfs.components, hks, Ramfs.splitPath_dirname] at hle
    exact ((length_join_le_append slash ks ls).trans hle).trans_lt (Ramfs.length_dirname rel)
  have habove : ∀ ks, Ramfs.components (Ramfs.splitPath rel).1 ≠ ps ++ [u] ++ ks := by
    intro ks hks
    have hpre : v.ramfs.entry (ps ++ [u]) ≠ none := by
      rw [hks] at hdir
      exact Ramfs.entry_of_append (by rw [hdir]; simp)
    exact hpre (ha.absent hword (hlen _ ks hks) hnone)
  by_cases hb : (Ramfs.splitPath rel).2 = []
  · rw [hb, tokens_nil, List.append_nil, hts] at hsplit
    exact absurd (by simpa using hsplit.symm) (habove us)
  · rw [Ramfs.tokens_basename hb, hts] at hsplit
    rcases List.eq_nil_or_concat us with rfl | ⟨ks, x, rfl⟩
    · obtain ⟨hps, hu⟩ := List.append_inj' hsplit rfl
      have hdirs : v.entry root ps ≠ none := by
        refine ha.present (fun c hc => hword c (List.mem_append_left _ hc))
          (hlen ps [] (by rw [← hps, List.append_nil])) ?_
        rw [hps, hdir]
        simp
      obtain ⟨i, hi⟩ := Option.ne_none_iff_exists'.mp (mt entry_eq_none.mpr hdirs)
      exact ⟨rfl, hps.symm, by simpa using hu.symm, by rw [hi, hcur i hi]⟩
    · have hcut : ps ++ [u] ++ ks ++ [x] =
          Ramfs.components (Ramfs.splitPath rel).1 ++ [(Ramfs.splitPath rel).2] := by
        rw [← hsplit]
        simp
      exact absurd (List.append_inj' hcut rfl).1.symm (habove ks)

lemma createFile_agree (h : Ready v root fs) (ha : Agree v root) (hc : current < v.ramfs.heap.calls)
    (hts : Ramfs.components rel = ps ++ u :: us)
    (hcur : ∀ i, walk (links v) root ps = some i → i = current)
    (hboth : target (links v current) u = none → v.ramfs.Room rel →
      Memory v 0 ∨ Hidden v root (Ramfs.entered rel)) {fd : Option ℕ}
    (he : createFile v (rootMount root fs) current rel (some u) = (fd, w)) : Agree w root := by
  obtain ⟨hr, hroom⟩ := Ramfs.create_entry v.ramfs h.sound rel
  have hheap := (Ramfs.create_cases h.sound rel).1
  have hready := h.create rel
  have hmade : ∀ {x : Vfs} {idx : ℕ}, target (links v current) u = none →
      (v.ramfs.ramfsCreate rel).1 = some idx →
      NewNode { v with ramfs := (v.ramfs.ramfsCreate rel).2 } x current
        ⟨strncpy 31 u, .file, (rootMount root fs).fs, idx, some current, []⟩ → Agree x root := by
    intro x idx habsent hidx hnew
    obtain ⟨_, hdir, hbase, hps⟩ := room_place h ha hts hcur habsent
      (hroom.mp (by rw [hidx]; simp))
    have hplace : Ramfs.entered rel = ps ++ [u.take 31] := by rw [Ramfs.entered, hdir, hbase]
    rw [hidx, hplace] at hr
    exact ha.gain (hnew.entry_eq hready.rooted hps rfl)
      ((Ramfs.entry_congr hnew.inodes).trans hr) (.inl rfl)
  have hends := createFile_ends h.sound (rootMount root fs) hc rel u
  rw [he] at hends
  cases hends with
  | taken => exact ha
  | refused _ hres =>
    rw [hres, Option.map_none, gain_none] at hr
    exact fun ns hns => (ha ns hns).trans (by rw [hr])
  | noMemory habsent hres hout =>
    have hhid : Hidden v root (Ramfs.entered rel) := by
      rcases hboth habsent (hroom.mp (by rw [hres]; simp)) with hm | hhid
      · exact absurd hout hm
      · exact hhid
    exact ha.gain (e := none) (by rw [gain_none]; rfl) hr (.inr hhid)
  | noDescriptor habsent hres _ hnew => exact hmade habsent hres hnew
  | opened habsent hres _ hnew => exact (hmade habsent hres hnew).congr rfl rfl

lemma createFile_null_agree (h : Ready v root fs) (ha : Agree v root)
    (hts : Ramfs.components rel = [])
    (hnameless : v.ramfs.Room rel → Memory v 0 → v.entry root [nullString] ≠ none) {fd : Option ℕ}
    (he : createFile v (rootMount root fs) root rel (some nullString) = (fd, w)) : Agree w root := by
  obtain ⟨hr, hroom⟩ := Ramfs.create_entry v.ramfs h.sound rel
  have hbase : (Ramfs.splitPath rel).2 = [] := by
    by_contra hne
    have hsplit := Ramfs.components_split rel
    rw [hts, Ramfs.tokens_basename hne] at hsplit
    simp at hsplit
  have hhid : Hidden v root (Ramfs.entered rel) := by
    intro hvis
    rw [Ramfs.entered, hbase] at hvis
    exact absurd hvis not_visible_of_nil
  have hagree : Agree { v with ramfs := (v.ramfs.ramfsCreate rel).2 } root :=
    ha.gain (e := none) (by rw [gain_none]; rfl) hr (.inr hhid)
  have hnot : ∀ {idx : ℕ}, target (links v root) nullString = none →
      (v.ramfs.ramfsCreate rel).1 = some idx →
      v.ramfs.heap.outcome v.ramfs.heap.calls ≠ none → False := by
    intro idx habsent hidx hout
    exact hnameless (hroom.mp (by rw [hidx]; simp)) hout
      (missing_of_target (walk_nil (links v) root) habsent).2
  have hends := createFile_ends h.sound (rootMount root fs) h.rooted.root_lt rel nullString
  rw [he] at hends
  cases hends with
  | taken => exact ha
  | refused => exact hagree
  | noMemory => exact hagree.congr rfl rfl
  | noDescriptor habsent hres hout => exact (hnot habsent hres hout).elim
  | opened habsent hres hout => exact (hnot habsent hres hout).elim

end Files

section Create

variable {v w : Vfs} {root fs : ℕ} {rel t u : CString} {cs us : List CString}

lemma DirMade.agree_first {node : ℕ} {child : Option ℕ} (hmade : DirMade v w root fs node cs t child)
    (h : Ready v root fs) (ha : Agree v root) (hboth : MakesBoth v root rel)
    (hts : Ramfs.components rel = cs ++ t :: u :: us) (hw : walk (links v) root cs = some node)
    (habsent : target (links v node) t = none) : Agree w root := by
  obtain ⟨hwcs, hwt, _, hlen⟩ := dir_words hts
  have hmissing := missing_of_target hw habsent
  have hnone := ha.absent (List.forall_mem_append.mpr ⟨hwcs, by simpa using hwt⟩) hlen hmissing.2
  apply hmade.agree ha hw
  rcases hboth.dir cs t u us hts hmissing with hhid | hiff
  · exact .inl hhid
  · right
    rw [room_join h.sound hwcs hwt hlen.le]
    exact ⟨fun hr => hiff.mp ⟨hr.1, hr.2.2⟩, fun hm => ⟨(hiff.mpr hm).1, hnone, (hiff.mpr hm).2⟩⟩

lemma made_agree (h : Ready v root fs) (ha : Agree v root) (hboth : MakesBoth v root rel)
    (hts : Ramfs.components rel = cs ++ t :: u :: us) {node child : ℕ} (next : Option Cursor)
    (hw : walk (links v) root cs = some node) (habsent : target (links v node) t = none)
    (hmade : DirMade v w root fs node cs t (some child)) (hlt : child < w.ramfs.heap.calls)
    {fd : Option ℕ} {z : Vfs}
    (he : createFile (w.setCursor next) (rootMount root fs) child rel (some u) = (fd, z)) :
    Agree z root := by
  have haw := hmade.agree_first h ha hboth hts hw habsent
  obtain ⟨hwcs, hwt, hwu, hlen⟩ := dir_words hts
  have hchild := hmade.walk_child hw habsent
  have hts' : Ramfs.components rel = (cs ++ [t]) ++ u :: us := by rw [hts, List.append_cons]
  have hcur : ∀ i, walk (links w) root (cs ++ [t]) = some i → i = child ∧ t.length ≤ 31 := by
    intro i hi
    rw [hchild] at hi
    split at hi
    · next hshort => exact ⟨(Option.some.inj hi).symm, hshort⟩
    · cases hi
  refine createFile_agree (hmade.ready.cursor next) (haw.congr rfl rfl) hlt hts'
    (fun i hi => (hcur i hi).1) (fun hnone hroom => ?_) he
  obtain ⟨rfl, hdirs, hbase, hps⟩ := room_place (hmade.ready.cursor next) (haw.congr rfl rfl) hts'
    (fun i hi => (hcur i hi).1) hnone hroom
  have hshort := (hcur child hps).2
  obtain ⟨hdirw, _, hfree⟩ := (Ramfs.room_iff hmade.ready.sound rel).mp hroom
  rw [hdirs] at hdirw
  have hmissing := missing_of_target hw habsent
  have hold := ha.absent (List.forall_mem_append.mpr ⟨hwcs, by simpa using hwt⟩) hlen hmissing.2
  obtain ⟨hcs, hslots⟩ := hmade.slots h.sound hwcs hwt hlen.le hold (by
    rw [show w.ramfs.entry (cs ++ [t]) = some .dir from hdirw]
    simp)
  have hmany : 1 < v.slots := by
    have hone : 0 < w.slots := hfree
    omega
  rcases hboth.dirFile cs t u hts (by rw [hbase]; exact hwu.1) hmissing hcs hshort hmany
    (hmade.made child rfl).1 with hm | hinv
  · exact .inl ((hmade.memory 0).mpr hm)
  · refine .inr fun hvis => absurd hvis ?_
    rw [Ramfs.entered, hdirs, hbase, List.append_assoc]
    exact hinv

lemma DirMade.agree_second {x : CString} {child : ℕ} {child' : Option ℕ} {z : Vfs}
    (hmade : DirMade v w root fs root [] t (some child)) (hmade' : DirMade w z root fs child [t] u child')
    (h : Ready v root fs) (ha : Agree v root) (hboth : MakesBoth v root rel)
    (hts : Ramfs.components rel = t :: u :: x :: us) (habsent : target (links v root) t = none) :
    Agree w root ∧ Agree z root := by
  have haw := hmade.agree_first h ha hboth (show _ = [] ++ t :: u :: x :: us from hts) rfl habsent
  obtain ⟨_, hwt, hwu, hlent⟩ := dir_words (show _ = [] ++ t :: u :: x :: us from hts)
  obtain ⟨hone, _, _, hlen⟩ := dir_words (show _ = [t] ++ u :: x :: us from hts)
  refine ⟨haw, ?_⟩
  have hmissing : Missing v root [] t := missing_of_target rfl habsent
  obtain ⟨hm, hleaf, _, hgain, _⟩ := hmade.made child rfl
  have hchild := hmade.walk_child rfl habsent
  have hroomt : w.ramfs.Room (join slash ([t] ++ [u])) → t.length ≤ 31 := by
    intro hroom
    have hdirt := ((room_join hmade.ready.sound hone hwu hlen.le).mp hroom).1
    exact Ramfs.entry_names [t] (by rw [hdirt]; simp) t (by simp)
  rcases hboth.dirDir t u x us hts hmissing hm with hhid | hiff
  · -- the first directory is hidden by an older one, and so is what is made in it
    have hvis : Visible [t.take 31] := by
      refine ⟨by simpa using isComponent_take hwt, ?_⟩
      rw [join_singleton]
      exact (List.length_take_le 31 t).trans_lt (by decide)
    have htaken := hhid hvis
    have hlong : ¬ t.length ≤ 31 := by
      intro hshort
      rw [List.take_of_length_le hshort] at htaken
      exact htaken hmissing.2
    exact hmade'.agree_of_same haw (hmade'.entry_unreached (hmade.unreached rfl htaken))
      fun hroom => hlong (hroomt hroom)
  · by_cases hshort : t.length ≤ 31
    · rw [if_pos hshort] at hchild
      refine hmade'.agree haw hchild (.inr ?_)
      have hwdir : w.entry root [t] = some .dir := by
        rw [(hgain [] rfl).2, gain, List.take_of_length_le hshort, List.nil_append, if_pos rfl,
          show v.entry root [t] = none from hmissing.2]
        rfl
      have hrdir : w.ramfs.entry [t] = some .dir := by
        rw [← haw [t] ⟨fun c hc => ⟨hone c hc, by rw [List.mem_singleton.mp hc]; exact hshort⟩, hlent⟩]
        exact hwdir
      have hslots := (hmade.slots h.sound (by simp) hwt hlent.le
        (ha.absent hone hlent hmissing.2) (by
          rw [List.nil_append, hrdir]
          simp)).2
      have hnone : w.ramfs.entry [t, u] = none := by
        refine haw.absent (by simp [hwt, hwu]) hlen ?_
        rw [entry_eq_none, show [t, u] = [] ++ [t] ++ [u] from rfl, walk_concat, hchild,
          Option.bind_some, hleaf]
        rfl
      have hiffs : 0 < w.slots ↔ 1 < v.slots := by omega
      rw [room_join hmade.ready.sound hone hwu hlen.le, hmade.memory 0, ← hiff, hiffs]
      exact ⟨fun hr => ⟨hshort, hr.2.2⟩, fun hr => ⟨hrdir, hnone, hr.2⟩⟩
    · have hno : child' = none := by
        cases child' with
        | none => rfl
        | some i =>
          have hm1 := (hmade.memory 0).mp (hmade'.made i rfl).1
          exact absurd (hiff.mpr hm1).1 hshort
      exact hmade'.agree_of_same haw (entry_congr (hmade'.failed hno).2) fun hroom => hshort (hroomt hroom)

lemma madeTwice_agree (h : Ready v root fs) (ha : Agree v root) (hboth : MakesBoth v root rel)
    {x : CString} (hts : Ramfs.components rel = t :: u :: x :: us) {child child' : ℕ}
    (next : Option Cursor) {y z : Vfs} (habsent : target (links v root) t = none)
    (hmade : DirMade v w root fs root [] t (some child))
    (hmade' : DirMade w y root fs child [t] u (some child')) (hlt : child' < y.ramfs.heap.calls)
    {fd : Option ℕ}
    (he : createFile (y.setCursor next) (rootMount root fs) child' rel (some x) = (fd, z)) :
    Agree z root := by
  obtain ⟨haw, hay⟩ := hmade.agree_second hmade' h ha hboth hts habsent
  obtain ⟨_, hwt, hwu, hlent⟩ := dir_words (show _ = [] ++ t :: u :: x :: us from hts)
  obtain ⟨hone, _, hwx, hlen⟩ := dir_words (show _ = [t] ++ u :: x :: us from hts)
  have hmissing : Missing v root [] t := missing_of_target rfl habsent
  have hchild := hmade.walk_child rfl habsent
  have hnone : target (links w child) u = none := by
    rw [(hmade.made child rfl).2.1]
    rfl
  have hcur : ∀ i, walk (links y) root [t, u] = some i →
      i = child' ∧ t.length ≤ 31 ∧ u.length ≤ 31 := by
    intro i hi
    have hnames := entry_names (v := y)
      (mt entry_eq_none.mp (by rw [hi]; simp))
    have hshort := hnames t (by simp)
    rw [if_pos hshort] at hchild
    have hwalk := hmade'.walk_child hchild hnone
    rw [List.singleton_append, hi] at hwalk
    split at hwalk
    · next hshort' => exact ⟨Option.some.inj hwalk, hshort, hshort'⟩
    · cases hwalk
  refine createFile_agree (hmade'.ready.cursor next) (hay.congr rfl rfl) hlt
    (show _ = [t, u] ++ x :: us from hts) (fun i hi => (hcur i hi).1) (fun hleaf hroom => ?_) he
  obtain ⟨rfl, hdirs, hbase, hps⟩ := room_place (hmade'.ready.cursor next) (hay.congr rfl rfl)
    (show _ = [t, u] ++ x :: us from hts) (fun i hi => (hcur i hi).1) hleaf hroom
  obtain ⟨_, hshort, hshort'⟩ := hcur child' hps
  rw [if_pos hshort] at hchild
  obtain ⟨hdiry, _, hfree⟩ := (Ramfs.room_iff hmade'.ready.sound rel).mp hroom
  rw [hdirs] at hdiry
  have hold' : w.ramfs.entry ([t] ++ [u]) = none := by
    apply haw.absent (by simp [hwt, hwu]) hlen
    rw [entry_eq_none, walk_concat]
    rw [List.nil_append] at hchild
    rw [hchild]
    exact hnone
  obtain ⟨hdirw, hslots'⟩ := hmade'.slots hmade.ready.sound hone hwu hlen.le hold' (by
    rw [List.singleton_append, show y.ramfs.entry [t, u] = some .dir from hdiry]
    simp)
  have hslots := (hmade.slots h.sound (by simp) hwt hlent.le
    (ha.absent hone hlent hmissing.2) (by
      rw [List.nil_append, hdirw]
      simp)).2
  have hmany : 2 < v.slots := by
    have hzero : 0 < y.slots := hfree
    omega
  have hm1 : Memory v 1 := (hmade.memory 0).mp (hmade'.made child' rfl).1
  rcases hboth.dirDirFile t u x hts (by rw [hbase]; exact hwx.1) hmissing hshort hshort' hmany
    (hmade.made child rfl).1 hm1 with hm | hinv
  · exact .inl ((hmade'.memory 0).mpr ((hmade.memory 1).mpr hm))
  · refine .inr fun hvis => absurd hvis ?_
    rw [Ramfs.entered, hdirs, hbase]
    exact hinv

lemma create_agree (h : Ready v root fs) (ha : Agree v root) {path : CString}
    (hboth : path.head? = some slash → MakesBoth v root (relOf path)) {fd : Option ℕ}
    (he : v.vfsCreate path = some (fd, w)) : Agree w root := by
  by_cases hp : path.head? = some slash
  · replace hboth := hboth hp
    by_cases hts : Ramfs.components (relOf path) = []
    · rw [h.mounted.create_null hp hts] at he
      exact createFile_null_agree (h.cursor (some ⟨.vfsCreate, []⟩)) (ha.congr rfl rfl) hts
        (hboth.nameless hts) (Option.some.inj he)
    · have hends := h.create_cases hp hts
      generalize v.vfsCreate path = res at hends he
      cases hends with
      | found next hts' hw =>
        exact createFile_agree (h.cursor next) (ha.congr rfl rfl) (h.rooted.walk_lt hw) hts'
          (fun i hi => Option.some.inj (hi.symm.trans hw)) (fun _ hroom => hboth.file hroom)
          (Option.some.inj he)
      | failed hts' hw habsent hmade =>
        cases he
        exact hmade.agree_first h ha hboth hts' hw habsent
      | made next hts' hw habsent _ hmade _ hlt =>
        exact made_agree h ha hboth hts' next hw habsent hmade hlt (Option.some.inj he)
      | lost => cases he
      | failedTwice hts' habsent hmade _ hmade' =>
        cases he
        exact (hmade.agree_second hmade' h ha hboth hts' habsent).2
      | madeTwice next hts' habsent hmade _ hmade' _ hlt =>
        exact madeTwice_agree h ha hboth hts' next habsent hmade hmade' hlt (Option.some.inj he)
  · rw [create_of_not_absolute hp] at he
    cases he
    exact ha

end Create

/-- The calls that change both trees alike, or nothing that a path could find. -/
def InStep (v : Vfs) (root : ℕ) : Op → Prop
  | .create path => path.head? = some slash → MakesBoth v root (relOf path)
  | .unlink path => path.head? = some slash →
    ∀ p e, Ramfs.Exists v.ramfs.inodes (relOf path) p e → ¬ Visible (Ramfs.place (relOf path))
  | .mkdir path => path.head? = some slash →
    v.ramfs.Room (relOf path) → Hidden v root (Ramfs.entered (relOf path))
  | .rmdir path => path.head? = some slash →
    ∀ p e, Ramfs.EmptyDir v.ramfs.inodes (relOf path) p e → ¬ Visible (Ramfs.place (relOf path))
  | _ => True

section Step

variable {v w : Vfs} {root fs : ℕ}

lemma Agree.removed (h : Agree v root) (hs : Ramfs.Sound v.ramfs.inodes) {rel : CString} {p : ℕ}
    {e : RamfsDirent} (he : Ramfs.Exists v.ramfs.inodes rel p e) (hhid : ¬ Visible (Ramfs.place rel))
    (hn : w.nodes = v.nodes)
    (hr : w.ramfs.inodes = Ramfs.removed v.ramfs.inodes p (Ramfs.splitPath rel).2 e.inodeIdx) :
    Agree w root := by
  intro ns hns
  rw [entry_congr hn, Ramfs.entry_removed hs he hr fun hp => hhid (hns.of_prefix hp)]
  exact h ns hns

lemma Agree.unlink (h : Agree v root) (hr : Ready v root fs) (path : CString)
    (hin : InStep v root (.unlink path)) : Agree (v.vfsUnlink path).2 root := by
  obtain ⟨next, ⟨_, he⟩ | ⟨hp, _, he⟩⟩ := hr.mounted.unlink_cases path
  · rw [he]
    exact h.congr rfl rfl
  · rw [he]
    rcases Ramfs.unlink_cases (r := (v.setCursor next).ramfs) hr.sound (relOf path) with
      ⟨_, hs, _⟩ | ⟨p, e, hex, _, hs, _⟩
    · exact h.congr rfl hs
    · exact h.removed hr.sound hex (hin hp p e hex) rfl hs

lemma Agree.rmdir (h : Agree v root) (hr : Ready v root fs) (path : CString)
    (hin : InStep v root (.rmdir path)) : Agree (v.vfsRmdir path).2 root := by
  rw [hr.mounted.rmdir_eq]
  split
  · next hp =>
    rcases (Ramfs.rmdir_cases hr.sound (relOf path)).2 with ⟨_, hs, _⟩ | ⟨p, e, he, _, hs⟩
    · exact h.congr rfl hs
    · exact h.removed hr.sound he.found (hin hp p e he) rfl hs
  · exact h

lemma Agree.mkdir (h : Agree v root) (hr : Ready v root fs) (path : CString)
    (hin : InStep v root (.mkdir path)) : Agree (v.vfsMkdir path).2 root := by
  rw [hr.mounted.mkdir_eq]
  split
  · next hp =>
    rcases Ramfs.mkdir_entry v.ramfs hr.sound (relOf path) with ⟨hroom, he, _⟩ | ⟨_, _, hs⟩
    · exact h.gain (e := none) (by rw [gain_none]; rfl) he (.inr (hin hp hroom))
    · exact h.congr rfl hs
  · exact h

lemma Agree.step (h : Agree v root) (hr : Ready v root fs) {l : Op × Result}
    (hin : InStep v root l.1) (hstep : Step v l w) : Agree w root := by
  rcases step_cases hstep with ⟨path, fd, rfl, hc⟩ | hl
  · exact create_agree hr h hin hc
  · cases call_ends hstep hl with
    | unchanged hi _ hw _ =>
      rw [hw]
      exact h.congr rfl hi
    | opened _ _ hw =>
      rw [hw]
      exact h.congr rfl rfl
    | moved hw _ =>
      rw [hw]
      exact h.congr rfl rfl
    | written ha hw =>
      rw [hw]
      cases hr.storage.write_ends ha with
      | closed => exact h.congr rfl rfl
      | failed => exact h.congr rfl rfl
      | written _ _ hc =>
        intro ns hns
        exact (h ns hns).trans (congrFun hc.sameTree.entry ns).symm
    | closed hw =>
      rw [hw]
      exact h.congr rfl rfl
    | @unlinked path =>
      cases hstep
      exact h.unlink hr path hin
    | @made path =>
      cases hstep
      exact h.mkdir hr path hin
    | @removed path =>
      cases hstep
      exact h.rmdir hr path hin

end Step

lemma Booted.agree {v : Vfs} (h : Booted v) : Agree v 0 := by
  obtain ⟨outcome, bytes, _, hv⟩ := booted_eq h
  have hlinks : links v 0 = [] := by simp [links, hv]
  have hrlinks : Ramfs.links v.ramfs.inodes 0 = [] := by
    rw [hv]
    exact Ramfs.init_links _ 0
  intro ns _
  by_cases hns : ns = []
  · subst hns
    simp [entry, Ramfs.entry, hv, Ramfs.ramfsInit, Ramfs.emptyInode, InodeType.entry]
  · rw [entry_eq_none.mpr (walk_of_nil hlinks hns), Ramfs.entry_eq_none.mpr (walk_of_nil hrlinks hns)]

/-- The VFS resolves the path if and only if the file system finds it, with the same type, and a file
with its inode. -/
structure SameAt (v : Vfs) (path : CString) : Prop where
  found : (v.vfsResolve path).1 ≠ none ↔ (v.vfsStat path).1 ≠ none
  type : ∀ i st, (v.vfsResolve path).1 = some i → (v.vfsStat path).1 = some st → (v.nodes i).type = st.1
  inode : ∀ i, (v.vfsResolve path).1 = some i → (v.nodes i).type = .file →
    (v.ramfs.ramfsFindInode (relOf path)).1 = some (v.nodes i).fsFd

def SameNames (v : Vfs) : Prop :=
  ∀ path : CString, path.head? = some slash → path.length < 256 →
    (∀ c ∈ tokens isSlash path, c.length ≤ 31) → SameAt v path

lemma visible_components {path : CString} (hp : path.head? = some slash) (hlen : path.length < 256)
    (hshort : ∀ c ∈ tokens isSlash path, c.length ≤ 31) : Visible (Ramfs.components (relOf path)) := by
  obtain ⟨rest, rfl⟩ : ∃ rest, path = slash :: rest := by
    cases path with
    | nil => cases hp
    | cons c cs =>
      cases hp
      exact ⟨cs, rfl⟩
  rw [tokens_delim isSlash (by decide)] at hshort
  rw [List.length_cons] at hlen
  have hrel : tokens isSlash (relOf (slash :: rest)) = tokens isSlash rest ∧
      (relOf (slash :: rest)).length ≤ rest.length := by
    rw [relOf, List.drop_one, List.tail_cons]
    split
    · next hhead =>
      cases rest with
      | nil => cases hhead
      | cons c cs =>
        cases hhead
        exact ⟨(tokens_delim isSlash (by decide) cs).symm, by simp⟩
    · exact ⟨rfl, le_rfl⟩
  have hcomps : Ramfs.components (relOf (slash :: rest)) = tokens isSlash rest := by
    rw [Ramfs.components, List.take_of_length_le (by omega), hrel.1]
  rw [hcomps]
  exact ⟨fun c hc => ⟨isWord_of_mem isSlash hc, hshort c hc⟩,
    (length_join_tokens_le isSlash slash rest).trans_lt (by omega)⟩

lemma Agree.sameNames {v : Vfs} {root fs : ℕ} (h : Agree v root) (hr : Ready v root fs) :
    SameNames v := by
  intro path hp hlen hshort
  have hagree := h _ (visible_components hp hlen hshort)
  have hresolve := hr.mounted.resolve_eq hp
  have hfind := Ramfs.findInode_eq hr.sound (relOf path)
  have hstat : (v.vfsStat path).1 = (walk (Ramfs.links v.ramfs.inodes) 0
      (Ramfs.components (relOf path))).map fun i => ((v.ramfs.inodes i).type, (v.ramfs.inodes i).size) := by
    rw [hr.mounted.stat_eq, if_pos hp, (stat_state _ _).1, hfind]
  rw [entry, Ramfs.entry] at hagree
  cases hv : walk (links v) root (Ramfs.components (relOf path)) with
  | none =>
    rw [hv, Option.map_none, eq_comm, Option.map_eq_none_iff] at hagree
    rw [hv] at hresolve
    rw [hagree] at hstat
    exact ⟨by simp [hresolve, hstat], fun i st hi => (by rw [hresolve] at hi; cases hi),
      fun i hi => (by rw [hresolve] at hi; cases hi)⟩
  | some i =>
    rw [hv, Option.map_some] at hagree
    obtain ⟨j, hj, hij⟩ := Option.map_eq_some_iff.mp hagree.symm
    rw [hv] at hresolve
    rw [hj] at hstat hfind
    have hsame : (v.ramfs.inodes j).type = (v.nodes i).type ∧
        ((v.nodes i).type = .file → j = (v.nodes i).fsFd) := by
      cases hti : (v.nodes i).type <;> cases htj : (v.ramfs.inodes j).type <;>
        simp [hti, htj, InodeType.entry] at hij ⊢
      exact hij
    refine ⟨by simp [hresolve, hstat], fun k st hk hst => ?_, fun k hk ht => ?_⟩
    · rw [hresolve] at hk
      rw [hstat] at hst
      cases hk
      cases hst
      exact hsame.1.symm
    · rw [hresolve] at hk
      cases hk
      rw [hfind, hsame.2 ht]

/-- As long as every call changes both trees alike, they have the same names. -/
theorem names_agree {v₀ v : Vfs} (hb : Booted v₀) {ls : List (Op × Result)}
    (hrun : Run (Guarded (fun v l => InStep v 0 l.1) Step) v₀ ls v) : SameNames v := by
  have hinv := hrun.invariant (I := fun v => Ready v 0 0 ∧ Agree v 0)
    (fun v l w hI hs => ⟨hI.1.step hs.2, hI.2.step hI.1 hs.1 hs.2⟩) ⟨hb.ready, hb.agree⟩
  exact hinv.2.sameNames hinv.1

lemma makesBoth_nested : MakesBoth bootedZero 0 (cstring "d/f") := by
  have hcomps : Ramfs.components (cstring "d/f") = [cstring "d", cstring "f"] := by decide
  have hmem : ∀ k, Memory bootedZero k := fun _ => Option.some_ne_none _
  refine ⟨fun _ => .inl (hmem 0), fun cs t u us hts _ => .inr ?_, fun cs t u _ _ _ _ _ _ _ => .inl (hmem 1),
    fun t u x us hts _ _ => ?_, fun t u x hts _ _ _ _ _ _ _ => .inl (hmem 2),
    fun hnil => absurd hnil (by rw [hcomps]; simp)⟩
  · rw [hcomps] at hts
    have hcs : cs = [] := by
      have hlen := congrArg List.length hts
      simp only [List.length_cons, List.length_nil, List.length_append] at hlen
      exact List.eq_nil_of_length_eq_zero (by omega)
    subst hcs
    exact iff_of_true ⟨rfl, by decide⟩ (hmem 0)
  · rw [hcomps] at hts
    simp at hts

def nested : List (Op × Result) :=
  [(.create (cstring "/d/f"), .fd (some 0)), (.write 0 [1], .count 1), (.close 0, .status true),
    (.open (cstring "/d/f"), .fd (some 0))]

theorem names_agree_nested :
    ∃ v, Run (Guarded (fun v l => InStep v 0 l.1) Step) bootedZero nested v ∧ SameNames v := by
  have hrun : Run (Guarded (fun v l => InStep v 0 l.1) Step) bootedZero nested
      ((nested.map Prod.fst).foldl next bootedZero) :=
    .cons ⟨fun _ => makesBoth_nested, step_next rfl⟩ <| .cons ⟨trivial, step_next rfl⟩ <|
    .cons ⟨trivial, step_next rfl⟩ <| .cons ⟨trivial, step_next rfl⟩ (.nil _)
  exact ⟨_, hrun, names_agree bootedZero_booted hrun⟩

theorem unlinked_resolves :
    Booted bootedZero ∧ ∃ v, Run Step bootedZero [(.create (cstring "/a"), .fd (some 0)),
      (.unlink (cstring "/a"), .status true)] v ∧ (v.vfsResolve (cstring "/a")).1 = some 1 ∧
      (v.vfsStat (cstring "/a")).1 = none ∧ ¬ SameNames v := by
  have hresolve : (((bootedZero.next (.create (cstring "/a"))).next
      (.unlink (cstring "/a"))).vfsResolve (cstring "/a")).1 = some 1 := rfl
  have hstat : (((bootedZero.next (.create (cstring "/a"))).next
      (.unlink (cstring "/a"))).vfsStat (cstring "/a")).1 = none := rfl
  refine ⟨bootedZero_booted, _, .cons (step_next rfl) (.cons (step_next rfl) (.nil _)), hresolve, hstat,
    fun hsame => ?_⟩
  have hfound := (hsame (cstring "/a") rfl (by decide) (by decide)).found
  rw [hresolve, hstat] at hfound
  simp at hfound

end Vfs

end Veni.Filesystem
