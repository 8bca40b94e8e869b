import Veni.Filesystem.VfsIsolation

/-! When `vfs_create` returns a descriptor: what the RAM file system has to hold before the call. -/

namespace Veni.Filesystem

open Veni.Libc Veni.Lib.Tokens Veni.Lib.NameGraph

namespace Ramfs

/-- A file can be entered at the path once the missing ones of the `asked` directories are made. -/
structure Fits (r : Ramfs) (rel : CString) (asked : List (List CString)) : Prop where
  dirs : ∀ ks, ks <+: components (splitPath rel).1 →
    r.entry ks = some .dir ∨ r.entry ks = none ∧ ks ∈ asked ∧ ∀ n ∈ ks, n.length ≤ 31
  absent : r.entry (place rel) = none
  slots : asked.countP (fun ks => (r.entry ks).isNone) < freeSlots r.inodes

lemma fits_nil {r : Ramfs} (h : Sound r.inodes) (rel : CString) : r.Fits rel [] ↔ r.Room rel := by
  rw [room_iff h]
  constructor
  · intro hf
    exact ⟨(hf.dirs _ (List.prefix_refl _)).resolve_right (by simp), hf.absent, by simpa using hf.slots⟩
  · rintro ⟨hdir, habsent, hslots⟩
    refine ⟨fun ks hks => .inl ?_, habsent, by simpa using hslots⟩
    obtain ⟨ls, hls⟩ := hks
    exact entry_dir_of_append (by rw [hls, hdir])

end Ramfs

namespace Vfs

section Fits

variable {v w : Vfs} {root fs current : ℕ} {rel t u : CString} {cs us : List CString}
  {child : Option ℕ} {asked : List (List CString)}

lemma DirMade.fits_below (hd : DirMade v w root fs current cs t child) (hs : Ramfs.Sound v.ramfs.inodes)
    (hts : Ramfs.components rel = cs ++ t :: u :: us) (hlen : ∀ ks ∈ asked, cs.length + 1 < ks.length)
    (h : v.ramfs.Fits rel ((cs ++ [t]) :: asked)) : w.ramfs.Fits rel asked := by
  obtain ⟨hwcs, hwt, _, hjoin⟩ := dir_words hts
  have hpre : cs ++ [t] <+: Ramfs.components (Ramfs.splitPath rel).1 :=
    Ramfs.prefix_dirname (by rw [hts, List.append_cons])
  have hnot : cs ++ [t] ∉ asked := fun hmem => by simpa using hlen _ hmem
  rcases hd.ramfs with ⟨hroom, he, hslots, _⟩ | ⟨hroom, hsame⟩
  · have habsent := ((room_join hs hwcs hwt hjoin.le).mp hroom).2.1
    have hshort : t.take 31 = t := by
      rcases h.dirs _ hpre with hdir | hlater
      · rw [habsent] at hdir
        cases hdir
      · exact List.take_of_length_le (hlater.2.2 t (by simp))
    rw [hshort] at he
    have hcount : asked.countP (fun ks => (w.ramfs.entry ks).isNone) =
        asked.countP fun ks => (v.ramfs.entry ks).isNone := by rw [he, countP_gain hnot]
    have hcountv := h.slots
    rw [List.countP_cons, habsent, Option.isNone_none, if_pos rfl, ← hcount] at hcountv
    refine ⟨fun ks hks => ?_, ?_, ?_⟩
    · by_cases heq : ks = cs ++ [t]
      · left
        rw [he, gain, heq, habsent, if_pos rfl, Option.none_or]
      · rw [he, gain_of_ne heq]
        exact (h.dirs ks hks).imp_right fun hlater =>
          ⟨hlater.1, (List.mem_cons.mp hlater.2.1).resolve_left heq, hlater.2.2⟩
    · rw [he, gain_of_ne fun heq => ?_]
      · exact h.absent
      · have hle := hpre.length_le
        rw [← heq, Ramfs.place, List.length_append, List.length_singleton] at hle
        omega
    · have hfree : Ramfs.freeSlots w.ramfs.inodes + 1 = Ramfs.freeSlots v.ramfs.inodes := hslots
      omega
  · have hthere : v.ramfs.entry (cs ++ [t]) = some .dir := by
      refine (h.dirs _ hpre).resolve_right fun hlater => hroom ?_
      refine (room_join hs hwcs hwt hjoin.le).mpr ⟨?_, hlater.1, Nat.zero_lt_of_lt h.slots⟩
      refine (h.dirs cs ((List.prefix_append _ _).trans hpre)).resolve_right fun habove => ?_
      rcases List.mem_cons.mp habove.2.1 with heq | hmem
      · simpa using congrArg List.length heq
      · have := hlen _ hmem
        omega
    have he := Ramfs.entry_congr hsame
    refine ⟨fun ks hks => ?_, by rw [he]; exact h.absent, ?_⟩
    · rw [he]
      by_cases heq : ks = cs ++ [t]
      · exact .inl (heq ▸ hthere)
      · exact (h.dirs ks hks).imp_right fun hlater =>
          ⟨hlater.1, (List.mem_cons.mp hlater.2.1).resolve_left heq, hlater.2.2⟩
    · have hcount := h.slots
      rw [List.countP_cons, hthere, Option.isNone_some, if_neg Bool.false_ne_true, Nat.add_zero] at hcount
      rw [he, hsame]
      exact hcount

lemma DirMade.fits_above (hd : DirMade v w root fs current cs t child) (hs : Ramfs.Sound v.ramfs.inodes)
    (hts : Ramfs.components rel = cs ++ t :: u :: us) (hlen : ∀ ks ∈ asked, cs.length + 1 < ks.length)
    (h : w.ramfs.Fits rel asked) : v.ramfs.Fits rel ((cs ++ [t]) :: asked) := by
  obtain ⟨hwcs, hwt, _, hjoin⟩ := dir_words hts
  have hpre : cs ++ [t] <+: Ramfs.components (Ramfs.splitPath rel).1 :=
    Ramfs.prefix_dirname (by rw [hts, List.append_cons])
  have hnot : cs ++ [t] ∉ asked := fun hmem => by simpa using hlen _ hmem
  have hthere : w.ramfs.entry (cs ++ [t]) = some .dir :=
    (h.dirs _ hpre).resolve_right fun hlater => hnot hlater.2.1
  rcases hd.ramfs with ⟨hroom, he, hslots, _⟩ | ⟨_, hsame⟩
  · have habsent := ((room_join hs hwcs hwt hjoin.le).mp hroom).2.1
    have hnames := Ramfs.entry_names (cs ++ [t]) (by rw [hthere]; simp)
    rw [List.take_of_length_le (hnames t (by simp))] at he
    have hcount : asked.countP (fun ks => (w.ramfs.entry ks).isNone) =
        asked.countP fun ks => (v.ramfs.entry ks).isNone := by rw [he, countP_gain hnot]
    refine ⟨fun ks hks => ?_, ?_, ?_⟩
    · by_cases heq : ks = cs ++ [t]
      · exact .inr ⟨by rw [heq, habsent], by rw [heq]; exact List.mem_cons_self, heq ▸ hnames⟩
      · have hback : w.ramfs.entry ks = v.ramfs.entry ks := by rw [he, gain_of_ne heq]
        rw [← hback]
        exact (h.dirs ks hks).imp_right fun hlater =>
          ⟨hlater.1, List.mem_cons_of_mem _ hlater.2.1, hlater.2.2⟩
    · exact gain_eq_none (he ▸ h.absent)
    · have hcountw := h.slots
      have hfree : Ramfs.freeSlots w.ramfs.inodes + 1 = Ramfs.freeSlots v.ramfs.inodes := hslots
      rw [List.countP_cons, habsent, Option.isNone_none, if_pos rfl, ← hcount]
      omega
  · have he := Ramfs.entry_congr hsame
    refine ⟨fun ks hks => ?_, by rw [← he]; exact h.absent, ?_⟩
    · rw [← he]
      exact (h.dirs ks hks).imp_right fun hlater =>
        ⟨hlater.1, List.mem_cons_of_mem _ hlater.2.1, hlater.2.2⟩
    · rw [List.countP_cons, ← he, hthere, Option.isNone_some, if_neg Bool.false_ne_true, Nat.add_zero,
        ← hsame]
      exact h.slots

lemma DirMade.fits_iff (hd : DirMade v w root fs current cs t child) (hs : Ramfs.Sound v.ramfs.inodes)
    (hts : Ramfs.components rel = cs ++ t :: u :: us) (hlen : ∀ ks ∈ asked, cs.length + 1 < ks.length) :
    w.ramfs.Fits rel asked ↔ v.ramfs.Fits rel ((cs ++ [t]) :: asked) :=
  ⟨hd.fits_above hs hts hlen, hd.fits_below hs hts hlen⟩

end Fits

lemma no_room_below {rel t u : CString} {cs us : List CString} {r : Ramfs} (hs : Ramfs.Sound r.inodes)
    (hts : Ramfs.components rel = cs ++ t :: u :: us) (ht : t.take 31 ≠ t) : ¬ r.Room rel := by
  intro hroom
  have hsplit : Ramfs.components rel = (cs ++ [t]) ++ u :: us := by rw [hts, List.append_cons]
  obtain ⟨ks, hks⟩ := Ramfs.prefix_dirname hsplit
  have hdir := ((Ramfs.room_iff hs rel).mp hroom).1
  rw [← hks] at hdir
  have hlen := Ramfs.entry_names (cs ++ [t]) (by rw [Ramfs.entry_dir_of_append hdir]; simp) t (by simp)
  exact ht (List.take_of_length_le hlen)

section Missing

variable {v : Vfs} {root fs : ℕ} {path t u : CString} {cs us : List CString}

lemma Missing.target {cs : List CString} (h : Missing v root cs t) :
    ∃ node, walk (links v) root cs = some node ∧ target (links v node) t = none := by
  obtain ⟨hne, habsent⟩ := h
  rw [Ne, entry_eq_none] at hne
  obtain ⟨node, hw⟩ := Option.ne_none_iff_exists'.mp hne
  rw [entry_eq_none, walk_concat, hw] at habsent
  exact ⟨node, hw, habsent⟩

lemma Missing.unique {ds vs : List CString} {d : CString} (h : Missing v root cs t)
    (hd : Missing v root ds d) (he : cs ++ t :: us = ds ++ d :: vs) : cs = ds ∧ t = d ∧ us = vs := by
  obtain ⟨i, hi, ht⟩ := h.target
  obtain ⟨j, hj, hd⟩ := hd.target
  exact missing_unique he hi ht hj hd

lemma Asks.of_nil {ts : List CString} {asked : List (List CString)} (h : Asks v root ts asked)
    (hts : ts = []) : asked = [] ∧ Missing v root [] nullString := by
  cases h with
  | none hts' => simp [hts'] at hts
  | one hts' => simp [hts'] at hts
  | two hts' => simp [hts'] at hts
  | null _ h => exact ⟨rfl, h⟩

lemma Asks.unique {ts : List CString} {asked other : List (List CString)} (h : Asks v root ts asked)
    (h' : Asks v root ts other) : asked = other := by
  by_cases hnil : ts = []
  · exact (h.of_nil hnil).1.trans (h'.of_nil hnil).1.symm
  cases h with
  | null hts => exact absurd hts hnil
  | none hts h =>
    cases h' with
    | null hts => exact absurd hts hnil
    | none => rfl
    | one hts' h' =>
      obtain ⟨_, _, hus⟩ := h.unique h' (hts.symm.trans hts')
      cases hus
    | two hts' h' =>
      obtain ⟨_, _, hus⟩ := h.unique h' (hts.symm.trans hts')
      cases hus
  | one hts h hend =>
    cases h' with
    | null hts => exact absurd hts hnil
    | none hts' h' =>
      obtain ⟨_, _, hus⟩ := h.unique h' (hts.symm.trans hts')
      cases hus
    | one hts' h' =>
      obtain ⟨rfl, rfl, _⟩ := h.unique h' (hts.symm.trans hts')
      rfl
    | two hts' h' =>
      obtain ⟨rfl, _, hus⟩ := h.unique h' (hts.symm.trans hts')
      cases hus
      rcases hend with hne | hnil
      · exact absurd rfl hne
      · cases hnil
  | two hts h =>
    cases h' with
    | null hts => exact absurd hts hnil
    | none hts' h' =>
      obtain ⟨_, _, hus⟩ := h.unique h' (hts.symm.trans hts')
      cases hus
    | one hts' h' hend =>
      obtain ⟨rfl, _, hus⟩ := h.unique h' (hts.symm.trans hts')
      cases hus
      rcases hend with hne | hnil
      · exact absurd rfl hne
      · cases hnil
    | two hts' h' =>
      obtain ⟨_, rfl, hus⟩ := h.unique h' (hts.symm.trans hts')
      cases hus
      rfl

lemma Ready.create_reach (h : Ready v root fs) (hp : path.head? = some slash)
    (hts : Ramfs.components (relOf path) = cs ++ t :: u :: us) {node : ℕ}
    (hw : walk (links v) root cs = some node) (habsent : target (links v node) t = none) :
    ∃ q next k, q.val = join slash cs ∧ us.length < k ∧ v.vfsCreate path =
      match createDir (v.setCursor next) (rootMount root fs) node q t with
      | (none, w) => some (none, w)
      | (some child, w) =>
        match createLoop (rootMount root fs) k w child (appendPath q t) u with
        | none => none
        | some (none, w) => some (none, w)
        | some (some (current, token), w) =>
          some (createFile w (rootMount root fs) current (relOf path) (some token)) := by
  obtain ⟨d, ds, hds⟩ := List.exists_cons_of_ne_nil
    (show Ramfs.components (relOf path) ≠ [] by rw [hts]; simp)
  obtain ⟨rest, hrest, hcreate⟩ := h.mounted.create_cons hp hds
  have hwords : ∀ c ∈ d :: ds, IsWord isSlash c := fun c hc => components_word (hds ▸ hc)
  have hlen : (join slash (d :: ds)).length ≤ 255 := hds ▸ components_length _
  have hcount := length_tokens_le isSlash ((relOf path).take 255)
  have htake := List.length_take_le 255 (relOf path)
  rw [show tokens isSlash ((relOf path).take 255) = d :: ds from hds, List.length_cons] at hcount
  have hsplit : cs ++ t :: u :: us = d :: ds := hts.symm.trans hds
  have hroot : walk (links v) (rootMount root fs).node [] = some root := rfl
  have hempty : (⟨[], by decide⟩ : CBuffer 256).val = join slash [] := rfl
  rcases createLoop_reach hwords hlen (show d :: ds = [] ++ d :: ds from rfl) hroot hempty hrest
      (by omega : ds.length < 256) with
    ⟨es, e, i, _, hes, hi, _⟩ | ⟨es, e, f, fs', i, k, q, rest', hes, hi, he, hq, _, hk, hloop⟩
  · exact absurd habsent (not_missing (hes.symm.trans hsplit.symm) hi hw)
  · obtain ⟨rfl, rfl, hfs⟩ := missing_unique (hes.symm.trans hsplit.symm) hi he hw habsent
    cases hfs
    rw [show walk (links v) (rootMount root fs).node es = _ from hw] at hi
    cases hi
    refine ⟨q, some ⟨.vfsCreate, rest'⟩, k, hq, hk, hcreate.trans ?_⟩
    rw [show createLoop (rootMount root fs) 256 _ root _ d = _ from hloop]
    cases createDir (v.setCursor (some ⟨.vfsCreate, rest'⟩)) (rootMount root fs) node q e with
    | mk made w =>
    cases made with
    | none => rfl
    | some child => rfl

lemma Ready.create_none_iff (h : Ready v root fs) (hp : path.head? = some slash)
    (hts : Ramfs.components (relOf path) = cs ++ t :: u :: us) (hmiss : Missing v root cs t) :
    v.vfsCreate path = none ↔ Memory v 0 ∧ cs ≠ [] ∧ v.ramfs.entry cs.dropLast = none := by
  obtain ⟨node, hw, habsent⟩ := hmiss.target
  obtain ⟨hwcs, hwt, _, hlen⟩ := dir_words hts
  by_cases hcs : cs = []
  · refine iff_of_false (fun hnone => ?_) fun h => h.2.1 hcs
    have hends := h.create_cases hp (by rw [hts]; simp)
    generalize v.vfsCreate path = res at hends hnone
    cases hends with
    | found => cases hnone
    | failed => cases hnone
    | made => cases hnone
    | lost hts' hw' habsent' hlost =>
      obtain ⟨rfl, _⟩ := missing_unique (hts'.symm.trans hts) hw' habsent' hw habsent
      rw [hcs] at hlost
      cases hlost
    | failedTwice => cases hnone
    | madeTwice => cases hnone
  · obtain ⟨q, next, k, hq, hk, hcreate⟩ := h.create_reach hp hts hw habsent
    obtain ⟨n, rfl⟩ := Nat.exists_eq_succ_of_ne_zero (Nat.ne_of_gt (Nat.zero_lt_of_lt hk))
    rw [hcreate, Ramfs.entry_eq_none]
    cases hdir : createDir (v.setCursor next) (rootMount root fs) node q t with
    | mk made w =>
    have hmade := h.dirMade hts hw hq hdir
    cases made with
    | none => exact iff_of_false (by simp) fun hm => (hmade.failed rfl).1 hm.1
    | some child =>
      rcases createLoop_dead (n := n) (q := appendPath q t) (u := u) h.sound hcs hwcs hwt hlen.le hq hdir with
        ⟨hlost, hloop⟩ | ⟨hfound, next', hloop⟩
      · exact iff_of_true (by simp only [hloop]) ⟨(hmade.made child rfl).1, hcs, hlost⟩
      · refine iff_of_false ?_ fun hlost => hfound hlost.2.2
        simp only [hloop]
        exact Option.some_ne_none _

end Missing

def Descriptor (v : Vfs) : Prop := ∃ fd < vfsMaxOpen, (v.files fd).used = false

lemma descriptor_congr {v w : Vfs} (h : w.files = v.files) : Descriptor w ↔ Descriptor v := by
  rw [Descriptor, Descriptor, h]

/-- `vfs_create` has memory for every node it asks for, the RAM file system enters the file, and a
descriptor is free. -/
def Succeeds (v : Vfs) (root : ℕ) (rel : CString) : Prop :=
  (∃ asked, Asks v root (Ramfs.components rel) asked ∧ (∀ k ≤ asked.length, Memory v k) ∧
    v.ramfs.Fits rel asked) ∧ Descriptor v

section Succeeds

variable {v w : Vfs} {root fs current : ℕ} {rel t u : CString} {cs us : List CString}

lemma succeeds_iff {asked : List (List CString)} (h : Asks v root (Ramfs.components rel) asked) :
    Succeeds v root rel ↔ (∀ k ≤ asked.length, Memory v k) ∧ v.ramfs.Fits rel asked ∧ Descriptor v := by
  constructor
  · rintro ⟨⟨other, hother, hmem, hfits⟩, hfd⟩
    rw [h.unique hother]
    exact ⟨hmem, hfits, hfd⟩
  · rintro ⟨hmem, hfits, hfd⟩
    exact ⟨⟨asked, h, hmem, hfits⟩, hfd⟩

lemma succeeds_found (hs : Ramfs.Sound v.ramfs.inodes) (h : Asks v root (Ramfs.components rel) []) :
    Succeeds v root rel ↔ v.ramfs.Room rel ∧ Memory v 0 ∧ Descriptor v := by
  rw [succeeds_iff h, Ramfs.fits_nil hs]
  simp only [List.length_nil, Nat.le_zero, forall_eq]
  tauto

lemma memory_upto_succ {n : ℕ} (hd : ∀ k, Memory w k ↔ Memory v (k + 1)) :
    (∀ k ≤ n + 1, Memory v k) ↔ Memory v 0 ∧ ∀ k ≤ n, Memory w k := by
  constructor
  · exact fun h => ⟨h 0 (Nat.zero_le _), fun k hk => (hd k).mpr (h (k + 1) (Nat.succ_le_succ hk))⟩
  · rintro ⟨hzero, hrest⟩ k hk
    cases k with
    | zero => exact hzero
    | succ k => exact (hd k).mp (hrest k (Nat.le_of_succ_le_succ hk))

lemma DirMade.succeeds_iff {child : ℕ} (hd : DirMade v w root fs current cs t (some child))
    (hs : Ramfs.Sound v.ramfs.inodes) (hts : Ramfs.components rel = cs ++ t :: u :: us)
    (hmiss : Missing v root cs t) (hend : cs ≠ [] ∨ us = []) :
    Succeeds v root rel ↔ w.ramfs.Room rel ∧ Memory w 0 ∧ Descriptor v := by
  rw [Vfs.succeeds_iff (.one hts hmiss hend), ← hd.fits_iff hs hts (by simp),
    Ramfs.fits_nil hd.ready.sound, List.length_singleton, memory_upto_succ hd.memory]
  have hzero := (hd.made child rfl).1
  simp only [Nat.le_zero, forall_eq]
  tauto

lemma DirMade.succeeds_twice {x : CString} {child child' : ℕ} {y : Vfs}
    (hd : DirMade v w root fs root [] t (some child)) (hd' : DirMade w y root fs child [t] u (some child'))
    (hs : Ramfs.Sound v.ramfs.inodes) (hts : Ramfs.components rel = t :: u :: x :: us)
    (hmiss : Missing v root [] t) :
    Succeeds v root rel ↔ y.ramfs.Room rel ∧ Memory y 0 ∧ Descriptor v := by
  have hone : w.ramfs.Fits rel [[t, u]] ↔ v.ramfs.Fits rel [[t], [t, u]] :=
    hd.fits_iff hs (show _ = [] ++ t :: u :: x :: us from hts) (by simp)
  have htwo : y.ramfs.Fits rel [] ↔ w.ramfs.Fits rel [[t, u]] :=
    hd'.fits_iff hd.ready.sound (show _ = [t] ++ u :: x :: us from hts) (by simp)
  rw [Vfs.succeeds_iff (.two hts hmiss), ← hone, ← htwo, Ramfs.fits_nil hd'.ready.sound,
    List.length_cons, List.length_singleton, memory_upto_succ hd.memory, memory_upto_succ hd'.memory]
  have hmem := (hd.made child rfl).1
  have hmem' := (hd'.made child' rfl).1
  simp only [Nat.le_zero, forall_eq]
  tauto

lemma not_succeeds {asked : List (List CString)} (h : Asks v root (Ramfs.components rel) asked) {k : ℕ}
    (hk : k ≤ asked.length) (hmem : ¬ Memory v k) : ¬ Succeeds v root rel :=
  fun hs => hmem (((succeeds_iff h).mp hs).1 k hk)

lemma asks_of_missing (hts : Ramfs.components rel = cs ++ t :: u :: us) (hmiss : Missing v root cs t) :
    ∃ asked, Asks v root (Ramfs.components rel) asked := by
  by_cases hend : cs ≠ [] ∨ us = []
  · exact ⟨_, .one hts hmiss hend⟩
  · obtain ⟨hcs, hus⟩ := not_or.mp hend
    rw [not_not] at hcs
    subst hcs
    obtain ⟨x, us, rfl⟩ := List.exists_cons_of_ne_nil hus
    exact ⟨_, .two hts hmiss⟩

lemma Asks.below {asked : List (List CString)} (h : Asks v root (cs ++ t :: u :: us) asked)
    (hmiss : Missing v root cs t) : cs ∉ asked := by
  intro hmem
  cases h with
  | none => cases hmem
  | one hts hmiss' =>
    obtain ⟨rfl, rfl, _⟩ := hmiss.unique hmiss' hts
    simpa using congrArg List.length (List.mem_singleton.mp hmem)
  | two hts hmiss' =>
    obtain ⟨rfl, _⟩ := hmiss.unique hmiss' hts
    simp at hmem
  | null => cases hmem

lemma Succeeds.above (hs : Succeeds v root rel) (hts : Ramfs.components rel = cs ++ t :: u :: us)
    (hmiss : Missing v root cs t) : v.ramfs.entry cs = some .dir := by
  obtain ⟨⟨asked, hasks, _, hfits⟩, _⟩ := hs
  rw [hts] at hasks
  exact (hfits.dirs cs (Ramfs.prefix_dirname hts)).resolve_right fun hno => hasks.below hmiss hno.2.1

end Succeeds

end Vfs

end Veni.Filesystem
