import Veni.Filesystem.VfsOutcome

/-! When the path that `vfs_create` was called with leads back to the descriptor's file. -/

namespace Veni.Filesystem

open Veni.Lib Veni.Libc Veni.Lib.Tokens Veni.Lib.NameGraph

namespace Ramfs

lemma entered_eq_iff (rel : CString) : entered rel = components rel ↔
    (splitPath rel).2 ≠ [] ∧ (splitPath rel).2.length ≤ 31 := by
  rw [entered, components_split rel, List.append_cancel_left_eq]
  by_cases hb : (splitPath rel).2 = []
  · rw [hb, tokens_nil]
    simp
  · rw [tokens_basename hb, List.cons.injEq, List.take_eq_self_iff]
    simp [hb]

lemma place_eq {rel : CString} (h : (splitPath rel).2 ≠ []) : place rel = components rel := by
  rw [place, components_split rel, tokens_basename h]

lemma Enters.walk_eq_iff {r s : Ramfs} (h : Sound r.inodes) {rel : CString} {p idx : ℕ}
    (he : Enters r.inodes rel p idx) {type : InodeType}
    (hs : s.inodes = added r.inodes type p (splitPath rel).2 idx) :
    walk (links s.inodes) 0 (components rel) = some idx ↔ entered rel = components rel := by
  rw [walk_added h he hs]
  constructor
  · intro hw
    cases hold : walk (links r.inodes) 0 (components rel) with
    | some i =>
      rw [hold, Option.some_or, Option.some.injEq] at hw
      have hused := (h.live_walk hold).2
      rw [hw, he.free.2.1] at hused
      cases hused
    | none =>
      rw [hold, Option.none_or] at hw
      split at hw
      · next heq => exact heq.symm
      · cases hw
  · intro heq
    have hname := ((entered_eq_iff rel).mp heq).1
    have habsent := ((room_iff h rel).mp ⟨p, idx, he⟩).2.1
    rw [place_eq hname, entry_eq_none] at habsent
    rw [habsent, Option.none_or, if_pos heq.symm]

end Ramfs

namespace Vfs

/-- The path and the descriptor have the same node, the path has the node's inode, and the path cannot
be created again. -/
def Leads (w : Vfs) (path : CString) (fd : ℕ) : Prop :=
  ∃ node, (w.files fd).node = some node ∧ (w.vfsResolve path).1 = some node ∧
    (w.ramfs.ramfsFindInode (relOf path)).1 = some (w.nodes node).fsFd ∧
    ∃ x, w.vfsCreate path = some (none, x)

def RoundTrip (v : Vfs) (path : CString) : Prop :=
  ∀ fd w, v.vfsCreate path = some (some fd, w) → Leads w path fd

section Leads

variable {v w x : Vfs} {root fs current : ℕ} {path u : CString}

lemma Ready.create_again (h : Ready w root fs) (hp : path.head? = some slash)
    (hne : Ramfs.components (relOf path) ≠ [])
    (hthere : walk (links w) root (Ramfs.components (relOf path)) ≠ none) :
    ∃ x, w.vfsCreate path = some (none, x) := by
  have hends := h.create_cases hp hne
  have hno : ∀ {cs us t node}, Ramfs.components (relOf path) = cs ++ t :: us →
      walk (links w) root cs = some node → target (links w node) t ≠ none :=
    fun hts hw habsent => hthere (by rw [hts, walk_missing hw habsent])
  generalize w.vfsCreate path = res at hends ⊢
  cases hends with
  | @found cs t node next hts hw =>
    have hends := createFile_ends (h.cursor next).sound (rootMount root fs) (h.rooted.walk_lt hw)
      (relOf path) t
    generalize createFile _ _ _ _ _ = res at hends ⊢
    have htaken := hno hts hw
    cases hends with
    | taken => exact ⟨_, rfl⟩
    | refused habsent => exact absurd habsent htaken
    | noMemory habsent => exact absurd habsent htaken
    | noDescriptor habsent => exact absurd habsent htaken
    | opened habsent => exact absurd habsent htaken
  | failed hts hw habsent => exact absurd habsent (hno hts hw)
  | made _ hts hw habsent => exact absurd habsent (hno hts hw)
  | lost hts hw habsent => exact absurd habsent (hno hts hw)
  | failedTwice hts habsent => exact absurd habsent (hno (show _ = [] ++ _ :: _ from hts) rfl)
  | madeTwice _ hts habsent => exact absurd habsent (hno (show _ = [] ++ _ :: _ from hts) rfl)

lemma Ready.leads_iff (h : Ready w root fs) (hp : path.head? = some slash)
    (hne : Ramfs.components (relOf path) ≠ []) {fd node : ℕ} (hfd : (w.files fd).node = some node) :
    Leads w path fd ↔ walk (links w) root (Ramfs.components (relOf path)) = some node ∧
      walk (Ramfs.links w.ramfs.inodes) 0 (Ramfs.components (relOf path)) = some (w.nodes node).fsFd := by
  rw [Leads, h.mounted.resolve_eq hp, Ramfs.findInode_eq h.sound]
  constructor
  · rintro ⟨i, hi, hw, hr, _⟩
    rw [hfd, Option.some.injEq] at hi
    subst hi
    exact ⟨hw, hr⟩
  · rintro ⟨hw, hr⟩
    exact ⟨node, hfd, hw, hr, h.create_again hp hne (by rw [hw]; simp)⟩

lemma Ready.opened_leads (hx : Ready x root fs) (hp : path.head? = some slash)
    (hne : Ramfs.components (relOf path) ≠ []) {ps : List CString}
    (hps : walk (links x) root ps = some current)
    (hmiss : walk (links x) root (Ramfs.components (relOf path)) = none) {fd : ℕ}
    (he : createFile x (rootMount root fs) current (relOf path) (some u) = (some fd, w)) :
    Leads w path fd ↔ Ramfs.components (relOf path) = ps ++ [u.take 31] ∧
      Ramfs.entered (relOf path) = Ramfs.components (relOf path) := by
  have hready := createFile_ready hx (hx.rooted.walk_lt hps) he
  have hends := createFile_ends hx.sound (rootMount root fs) (hx.rooted.walk_lt hps) (relOf path) u
  rw [he] at hends
  cases hends with
  | @opened idx fd y _ hres _ hnew _ =>
    have hheap := (Ramfs.create_cases hx.sound (relOf path)).1
    have hself := hnew.self
    have hwalk := hnew.walk_gain (hx.create (relOf path)).rooted hps rfl
      (Ramfs.components (relOf path))
    simp only [hheap, strncpy] at hself hwalk
    have hfile : ((y.setFile fd ⟨some x.ramfs.heap.calls, 0, true⟩).files fd).node =
        some x.ramfs.heap.calls := by simp [setFile]
    rw [hready.leads_iff hp hne hfile]
    refine and_congr ?_ ?_
    · rw [show links (y.setFile fd _) = links y from rfl, hwalk,
        show walk (links { x with ramfs := (x.ramfs.ramfsCreate (relOf path)).2 }) root _ = _ from hmiss,
        Option.none_or]
      simp
    · rcases (Ramfs.create_cases hx.sound (relOf path)).2 with ⟨hno, _⟩ | ⟨p, i, hent, hyes, hi⟩
      · rw [hres] at hno
        cases hno
      · cases hres.symm.trans hyes
        rw [← hent.walk_eq_iff (s := y.ramfs) hx.sound (hnew.inodes.trans hi)]
        simp only [setFile, hself]

lemma Ready.nameless_lost (hx : Ready x root fs) (hp : path.head? = some slash)
    (hnil : Ramfs.components (relOf path) = []) {fd : ℕ}
    (he : createFile x (rootMount root fs) root (relOf path) (some nullString) = (some fd, w)) :
    ¬ Leads w path fd := by
  have hready := createFile_ready hx hx.rooted.root_lt he
  have hends := createFile_ends hx.sound (rootMount root fs) hx.rooted.root_lt (relOf path) nullString
  rw [he] at hends
  cases hends with
  | opened =>
    rintro ⟨node, hnode, hresolve, _⟩
    rw [hready.mounted.resolve_eq hp, hnil, walk_nil, Option.some.injEq] at hresolve
    simp only [setFile, Function.update_self, Option.some.injEq] at hnode
    have hlt := hx.rooted.root_lt
    omega

lemma createFile_returns (hs : Ramfs.Sound x.ramfs.inodes) (mount : VfsMount)
    (hc : current < x.ramfs.heap.calls) (habsent : target (links x current) u = none) (rel : CString) :
    (∃ fd w, createFile x mount current rel (some u) = (some fd, w)) ↔
      x.ramfs.Room rel ∧ Memory x 0 ∧ Descriptor x := by
  have hroom := (Ramfs.create_entry x.ramfs hs rel).2
  have hends := createFile_ends hs mount hc rel u
  generalize createFile x mount current rel (some u) = res at hends
  cases hends with
  | taken ht => exact absurd habsent ht
  | refused _ hres => exact iff_of_false (by simp) fun hyes => hroom.mpr hyes.1 hres
  | noMemory _ _ hout => exact iff_of_false (by simp) fun hyes => hyes.2.1 hout
  | noDescriptor _ _ _ _ hfull =>
    refine iff_of_false (by simp) fun hyes => ?_
    obtain ⟨_, _, fd, hlt, hu⟩ := hyes
    rw [hfull fd hlt] at hu
    cases hu
  | opened _ hres hout _ hfd =>
    exact iff_of_true ⟨_, _, rfl⟩ ⟨hroom.mp (by rw [hres]; simp), hout, _, hfd.1, hfd.2.1⟩

lemma Ready.file_leads (hx : Ready x root fs) (hp : path.head? = some slash)
    {ps us : List CString} (hts : Ramfs.components (relOf path) = ps ++ u :: us)
    (hc : current < x.ramfs.heap.calls) (habsent : target (links x current) u = none)
    (hps : x.ramfs.Room (relOf path) → walk (links x) root ps = some current) :
    (∀ fd w, some (createFile x (rootMount root fs) current (relOf path) (some u)) =
      some (some fd, w) → Leads w path fd) ↔
      (x.ramfs.Room (relOf path) ∧ Memory x 0 ∧ Descriptor x →
        us = [] ∧ Ramfs.entered (relOf path) = Ramfs.components (relOf path)) := by
  have hne : Ramfs.components (relOf path) ≠ [] := by rw [hts]; simp
  have hreturns := createFile_returns hx.sound (rootMount root fs) hc habsent (relOf path)
  have hleads : ∀ {fd w}, createFile x (rootMount root fs) current (relOf path) (some u) =
      (some fd, w) → (Leads w path fd ↔
        us = [] ∧ Ramfs.entered (relOf path) = Ramfs.components (relOf path)) := by
    intro fd w he
    have hwalk := hps (hreturns.mp ⟨fd, w, he⟩).1
    rw [hx.opened_leads hp hne hwalk (by rw [hts, walk_missing hwalk habsent]) he]
    refine and_congr_left fun heq => ?_
    rw [hts, List.append_cancel_left_eq, List.cons.injEq]
    refine and_iff_right_of_imp fun hus => ?_
    have hname := ((Ramfs.entered_eq_iff _).mp heq).2
    rw [← heq, Ramfs.entered, hus] at hts
    have hlast := (List.append_inj' hts rfl).2
    rw [List.cons.injEq, List.take_of_length_le hname] at hlast
    rw [List.take_of_length_le (hlast.1 ▸ hname)]
  constructor
  · intro hall hyes
    obtain ⟨fd, w, he⟩ := hreturns.mpr hyes
    exact (hleads he).mp (hall fd w (congrArg some he))
  · intro hend fd w he
    replace he := Option.some.inj he
    exact (hleads he).mpr (hend (hreturns.mp ⟨fd, w, he⟩))

end Leads

/-- The name that `vfs_create` ends at is the path's last, and both trees keep it as it is. -/
structure Straight (v : Vfs) (root : ℕ) (rel : CString) : Prop where
  depth : (Ramfs.components rel).length ≤ 3 ∨
    v.entry root (Ramfs.components rel).dropLast.dropLast ≠ none
  name : (Ramfs.splitPath rel).2 ≠ [] ∧ (Ramfs.splitPath rel).2.length ≤ 31

section Straight

variable {v : Vfs} {root : ℕ} {rel t u x : CString} {cs us : List CString}

lemma straight_iff (hdepth : (Ramfs.components rel).length ≤ 3 ∨
    v.entry root (Ramfs.components rel).dropLast.dropLast ≠ none ↔ us = []) :
    Straight v root rel ↔ us = [] ∧ Ramfs.entered rel = Ramfs.components rel := by
  rw [Ramfs.entered_eq_iff, ← hdepth]
  exact ⟨fun hs => ⟨hs.depth, hs.name⟩, fun hs => ⟨hs.1, hs.2⟩⟩

lemma straight_found (hts : Ramfs.components rel = cs ++ [t]) (hcs : v.entry root cs ≠ none) :
    Straight v root rel ↔ ([] : List CString) = [] ∧ Ramfs.entered rel = Ramfs.components rel := by
  refine straight_iff (iff_of_true (.inr ?_) rfl)
  rw [hts, List.dropLast_concat]
  rcases List.eq_nil_or_concat cs with rfl | ⟨ds, d, rfl⟩
  · exact hcs
  · rw [List.concat_eq_append] at hcs ⊢
    rw [List.dropLast_concat]
    exact entry_of_append hcs

lemma entry_above (hmiss : Missing v root cs t) (hus : us ≠ []) :
    v.entry root (cs ++ t :: u :: us).dropLast.dropLast = none := by
  obtain ⟨x, us, rfl⟩ := List.exists_cons_of_ne_nil hus
  rw [List.dropLast_append_of_ne_nil (by simp), List.dropLast_append_of_ne_nil (by simp),
    List.dropLast_cons_cons, List.dropLast_cons_cons, List.dropLast_cons_cons, List.append_cons]
  by_contra hne
  exact entry_of_append hne hmiss.2

lemma straight_one (hts : Ramfs.components rel = cs ++ t :: u :: us) (hmiss : Missing v root cs t)
    (hend : cs ≠ [] ∨ us = []) :
    Straight v root rel ↔ us = [] ∧ Ramfs.entered rel = Ramfs.components rel := by
  refine straight_iff ?_
  by_cases hus : us = []
  · subst hus
    refine iff_of_true (.inr ?_) rfl
    rw [hts, show cs ++ [t, u] = (cs ++ [t]) ++ [u] by simp, List.dropLast_concat, List.dropLast_concat]
    exact hmiss.1
  · refine iff_of_false (fun hor => ?_) hus
    rw [hts, entry_above hmiss hus, List.length_append] at hor
    have hcs := List.length_pos_iff.mpr (hend.resolve_right hus)
    have hpos := List.length_pos_iff.mpr hus
    simp only [List.length_cons, ne_eq, not_true_eq_false, or_false] at hor
    omega

lemma straight_two (hts : Ramfs.components rel = t :: u :: x :: us) (hmiss : Missing v root [] t) :
    Straight v root rel ↔ us = [] ∧ Ramfs.entered rel = Ramfs.components rel := by
  have habove : v.entry root (t :: u :: x :: us).dropLast.dropLast = none :=
    entry_above hmiss (by simp)
  refine straight_iff ?_
  rw [hts, habove, or_iff_left (not_not.mpr rfl), ← List.length_eq_zero_iff]
  simp only [List.length_cons]
  omega

end Straight

section RoundTrip

variable {v : Vfs} {root fs : ℕ} {path rel t u : CString} {cs us ts : List CString}
  {asked : List (List CString)}

lemma absent_of_asks (h : Asks v root ts asked) (hne : ts ≠ []) : v.entry root ts = none := by
  have hnone : ∀ {cs us t}, Missing v root cs t → ts = cs ++ t :: us → v.entry root ts = none := by
    intro cs us t hmiss hts
    by_contra hne
    rw [hts, List.append_cons] at hne
    exact entry_of_append hne hmiss.2
  cases h with
  | none hts hmiss => exact hnone hmiss hts
  | one hts hmiss => exact hnone hmiss hts
  | two hts hmiss => exact hnone hmiss hts
  | null hts => exact absurd hts hne

lemma DirMade.walk_twice {y z : Vfs} {child child' : ℕ} {x : CString}
    (hd : DirMade v y root fs root [] t (some child)) (hd' : DirMade y z root fs child [t] u (some child'))
    (hts : Ramfs.components rel = t :: u :: x :: us) (habsent : target (links v root) t = none)
    (hroom : z.ramfs.Room rel) : walk (links z) root [t, u] = some child' := by
  have hshort : ∀ cs {us t u}, Ramfs.components rel = cs ++ t :: u :: us → t.length ≤ 31 :=
    fun cs us t u hts => (List.take_eq_self_iff _).mp
      (by_contra fun hlong => no_room_below hd'.ready.sound hts hlong hroom)
  have hchild : walk (links y) root [t] = some child :=
    (hd.walk_child rfl habsent).trans (if_pos (hshort [] hts))
  have hleaf : target (links y child) u = none := by
    rw [(hd.made child rfl).2.1]
    rfl
  exact (hd'.walk_child hchild hleaf).trans (if_pos (hshort [t] hts))

lemma Ready.roundTrip_nameless (h : Ready v root fs) (hp : path.head? = some slash)
    (hnil : Ramfs.components (relOf path) = []) :
    RoundTrip v path ↔ (Succeeds v root (relOf path) → Straight v root (relOf path)) := by
  have hbent : ¬ Straight v root (relOf path) := by
    intro hs
    have hsplit := Ramfs.components_split (relOf path)
    rw [hnil, Ramfs.tokens_basename hs.name.1] at hsplit
    simp at hsplit
  have hx := h.cursor (some ⟨.vfsCreate, []⟩)
  rw [RoundTrip, h.mounted.create_null hp hnil]
  cases htaken : target (links v root) nullString with
  | some i =>
    have hends := createFile_ends hx.sound (rootMount root fs) h.rooted.root_lt (relOf path) nullString
    refine iff_of_true (fun fd w he => ?_) fun hs => ?_
    · rw [Option.some.inj he] at hends
      cases hends with
      | opened habsent => exact absurd (habsent.symm.trans htaken) (by simp)
    · obtain ⟨⟨asked, hasks, _⟩, _⟩ := hs
      obtain ⟨j, hj, habsent⟩ := (hasks.of_nil hnil).2.target
      cases hj
      exact absurd (habsent.symm.trans htaken) (by simp)
  | none =>
    have hmiss := missing_of_target (walk_nil (links v) root) htaken
    rw [succeeds_found h.sound (.null hnil hmiss)]
    have hreturns := createFile_returns hx.sound (rootMount root fs) h.rooted.root_lt htaken (relOf path)
    constructor
    · intro hall hyes
      obtain ⟨fd, w, he⟩ := hreturns.mpr hyes
      exact absurd (hall fd w (congrArg some he)) (hx.nameless_lost hp hnil he)
    · intro hend fd w he
      exact absurd (hend (hreturns.mp ⟨fd, w, Option.some.inj he⟩)) hbent

lemma Ready.roundTrip_iff (h : Ready v root fs) (hp : path.head? = some slash) :
    RoundTrip v path ↔ (Succeeds v root (relOf path) → Straight v root (relOf path)) := by
  by_cases hnil : Ramfs.components (relOf path) = []
  · exact h.roundTrip_nameless hp hnil
  have hends := h.create_cases hp hnil
  rw [RoundTrip]
  generalize v.vfsCreate path = res at hends ⊢
  cases hends with
  | @found cs t node next hts hw =>
    have hlt := h.rooted.walk_lt hw
    cases htaken : target (links v node) t with
    | some i =>
      have hthere : walk (links v) root (Ramfs.components (relOf path)) = some i := by
        rw [hts, walk_concat, hw]
        exact htaken
      refine iff_of_true (fun fd w he => ?_) fun hs => ?_
      · have hagain := createFile_ends (h.cursor next).sound (rootMount root fs) hlt (relOf path) t
        rw [Option.some.inj he] at hagain
        cases hagain with
        | opened habsent => exact absurd (habsent.symm.trans htaken) (by simp)
      · obtain ⟨⟨asked, hasks, _⟩, _⟩ := hs
        rw [entry_eq_none.mp (absent_of_asks hasks hnil)] at hthere
        cases hthere
    | none =>
      have hmiss := missing_of_target hw htaken
      rw [straight_found hts hmiss.1, succeeds_found h.sound (.none hts hmiss)]
      exact (h.cursor next).file_leads hp hts hlt htaken fun _ => hw
  | failed hts hw habsent hmade =>
    obtain ⟨asked, hasks⟩ := asks_of_missing hts (missing_of_target hw habsent)
    have hno := not_succeeds hasks (Nat.zero_le _) (hmade.failed rfl).1
    exact iff_of_true (fun fd w he => by cases he) fun hs => absurd hs hno
  | @made cs us t u node child x next hts hw habsent hend hmade hdirs hlt =>
    have hmiss := missing_of_target hw habsent
    have hleaf : links (x.setCursor next) child = [] := (hmade.made child rfl).2.1
    have hfd : Descriptor (x.setCursor next) ↔ Descriptor v := descriptor_congr hdirs.files
    rw [straight_one hts hmiss hend, hmade.succeeds_iff h.sound hts hmiss hend, ← hfd]
    refine (hmade.ready.cursor next).file_leads hp (hts.trans (List.append_cons ..)) hlt
      (by rw [hleaf]; rfl) fun hroom => ?_
    refine (hmade.walk_child hw habsent).trans (if_pos ((List.take_eq_self_iff _).mp ?_))
    exact by_contra fun hlong => no_room_below hmade.ready.sound hts hlong hroom
  | lost hts hw habsent hlost =>
    refine iff_of_true (fun fd w he => by cases he) fun hs => ?_
    have habove := hs.above hts (missing_of_target hw habsent)
    rw [Ramfs.entry_eq_none.mpr hlost] at habove
    cases habove
  | failedTwice hts habsent hmade _ hmade' =>
    have hmem : ¬ Memory v 1 := mt (hmade.memory 0).mpr (hmade'.failed rfl).1
    have hno := not_succeeds (.two hts (missing_of_target rfl habsent)) (by simp) hmem
    exact iff_of_true (fun fd w he => by cases he) fun hs => absurd hs hno
  | @madeTwice us t u x child child' y z next hts habsent hmade hdirs hmade' hdirs' hlt =>
    have hmiss : Missing v root [] t := missing_of_target rfl habsent
    have hleaf : links (z.setCursor next) child' = [] := (hmade'.made child' rfl).2.1
    have hfd : Descriptor (z.setCursor next) ↔ Descriptor v :=
      descriptor_congr (hdirs'.files.trans hdirs.files)
    rw [straight_two hts hmiss, hmade.succeeds_twice hmade' h.sound hts hmiss, ← hfd]
    exact (hmade'.ready.cursor next).file_leads hp (show _ = [t, u] ++ x :: us from hts) hlt
      (by rw [hleaf]; rfl) fun hroom =>
        show walk (links z) root [t, u] = _ from hmade.walk_twice hmade' hts habsent hroom

end RoundTrip

/-- In every reachable state the path of a call that returns a descriptor leads back to its file if and
only if the call ends at the path's last name and both trees keep that name. -/
theorem create_roundTrip_iff {v₀ v : Vfs} (hb : Booted v₀) {ls : List (Op × Result)}
    (hrun : Transition.Run Step v₀ ls v) (path : CString) :
    RoundTrip v path ↔
      (path.head? = some slash → Succeeds v 0 (relOf path) → Straight v 0 (relOf path)) := by
  by_cases hp : path.head? = some slash
  · rw [(ready_of_run hb hrun).roundTrip_iff hp]
    exact ⟨fun hs _ => hs, fun hs => hs hp⟩
  · refine iff_of_true (fun fd w he => ?_) fun hyes => absurd hyes hp
    rw [create_of_not_absolute hp] at he
    cases he

theorem create_roundTrip_iff_nested :
    RoundTrip bootedZero (cstring "/d/f") ↔
      ((cstring "/d/f").head? = some slash → Succeeds bootedZero 0 (relOf (cstring "/d/f")) →
        Straight bootedZero 0 (relOf (cstring "/d/f"))) :=
  create_roundTrip_iff bootedZero_booted (.nil _) _

def nestedDirs : List (Op × Result) :=
  [(.mkdir (cstring "/a"), .status true), (.mkdir (cstring "/a/b"), .status true),
    (.mkdir (cstring "/a/b/c"), .status true)]

/-- The file `d` of the RAM file system is the file `c` of the VFS. -/
theorem created_elsewhere :
    Booted bootedZero ∧ ∃ v w, Transition.Run Step bootedZero nestedDirs v ∧
      v.vfsCreate (cstring "/a/b/c/d") = some (some 0, w) ∧
      (w.vfsResolve (cstring "/a/b/c")).1 = (w.files 0).node ∧
      (w.vfsResolve (cstring "/a/b/c/d")).1 = none ∧ ¬ RoundTrip v (cstring "/a/b/c/d") := by
  have hrun : Transition.Run Step bootedZero nestedDirs ((nestedDirs.map Prod.fst).foldl next bootedZero) :=
    .cons (step_next rfl) <| .cons (step_next rfl) <| .cons (step_next rfl) (.nil _)
  have hcreate : (((nestedDirs.map Prod.fst).foldl next bootedZero).vfsCreate (cstring "/a/b/c/d")).map
      (fun res => (res.1, (res.2.vfsResolve (cstring "/a/b/c")).1, (res.2.files 0).node,
        (res.2.vfsResolve (cstring "/a/b/c/d")).1)) = some (some 0, some 3, some 3, none) := by
    decide
  obtain ⟨⟨fd, w⟩, hw, hres⟩ := Option.map_eq_some_iff.mp hcreate
  simp only [Prod.mk.injEq] at hres
  obtain ⟨rfl, habove, hnode, hpath⟩ := hres
  refine ⟨bootedZero_booted, _, w, hrun, hw, habove.trans hnode.symm, hpath, fun htrip => ?_⟩
  obtain ⟨node, _, hresolve, _⟩ := htrip 0 w hw
  rw [hpath] at hresolve
  cases hresolve

end Vfs

end Veni.Filesystem
