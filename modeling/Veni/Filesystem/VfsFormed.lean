import Veni.Filesystem.VfsCreate
import Veni.Filesystem.VfsNamespace

/-! The shape of the node tree, and which directories `vfs_create` puts in it. -/

namespace Veni.Filesystem

open Veni.Libc Veni.Lib.Tokens Veni.Lib.NameGraph Veni.Lib.Transition

namespace Vfs

structure Linked (v : Vfs) (root : ℕ) : Prop where
  parent : ∀ i, ∀ c ∈ (v.nodes i).children, (v.nodes c).parent = some i
  names : ∀ i, ((links v i).map Prod.fst).Nodup
  found : ∀ i, ∀ c ∈ (v.nodes i).children, Reached (links v) root c

def OnlyDirs (v : Vfs) : Prop := ∀ i, (v.nodes i).children ≠ [] → (v.nodes i).type = .dir

def DirsIn (v : Vfs) (root : ℕ) (S : Set (List CString)) : Prop :=
  ∀ ns, ns ≠ [] → v.entry root ns = some .dir → ns ∈ S

section NewNode

variable {v w : Vfs} {root current : ℕ} {x : VfsNode}

lemma Linked.congr (h : Linked v root) (hn : w.nodes = v.nodes) : Linked w root where
  parent := by
    rw [hn]
    exact h.parent
  names := by
    rw [links_congr hn]
    exact h.names
  found := by
    rw [links_congr hn, hn]
    exact h.found

variable (h : NewNode v w current x) (hr : Rooted v root)

include h hr

lemma NewNode.linked (hl : Linked v root) (hc : Reached (links v) root current) (hx : x.children = [])
    (hp : x.parent = some current) (habsent : target (links v current) x.name.val = none) :
    Linked w root := by
  obtain ⟨ps, hps⟩ := hc
  have hlt := hr.walk_lt hps
  have hleaf : links v v.ramfs.heap.calls = [] := by
    rw [links, hr.leaf _ le_rfl]
    rfl
  have hlinks := h.links_eq hr hlt hx
  have hchild : ∀ i, ∀ c ∈ (w.nodes i).children,
      c ∈ (v.nodes i).children ∨ i = current ∧ c = v.ramfs.heap.calls := by
    intro i c hci
    have hmem : ((w.nodes c).name.val, c) ∈ links w i := mem_links.mpr ⟨hci, rfl⟩
    rw [hlinks, mem_link] at hmem
    exact hmem.imp (fun hold => (mem_links.mp hold).1) fun hnew => ⟨hnew.1, hnew.2.2⟩
  refine ⟨fun i c hci => ?_, ?_, fun i c hci => ?_⟩
  · rcases hchild i c hci with hold | ⟨rfl, rfl⟩
    · obtain ⟨cs, hcs⟩ := h.keeps (hr.child_lt i c hold).ne
      rw [hcs]
      exact hl.parent i c hold
    · rw [h.self, hp]
  · rw [hlinks]
    exact nodup_names_link hl.names (target_eq_none.mp habsent)
  · rw [hlinks, hr.tree.reached_link hleaf hlt.ne' ⟨ps, hps⟩ habsent]
    exact (hchild i c hci).imp (hl.found i c) fun hnew => hnew.2

lemma NewNode.onlyDirs_iff (hc : current < v.ramfs.heap.calls) (hx : x.children = []) :
    OnlyDirs w ↔ OnlyDirs v ∧ (v.nodes current).type = .dir := by
  constructor
  · intro hw
    constructor
    · intro i hi
      have hne : i ≠ v.ramfs.heap.calls := fun he => hi (hr.leaf i he.ge)
      have hiw := hw i
      by_cases hic : i = current
      · subst hic
        rw [h.parent] at hiw
        exact hiw (by simp)
      · rw [h.other i hne hic] at hiw
        exact hiw hi
    · have hcw := hw current
      rw [h.parent] at hcw
      exact hcw (by simp)
  · rintro ⟨hv, hdir⟩ i hi
    by_cases hin : i = v.ramfs.heap.calls
    · rw [hin, h.self, hx] at hi
      exact absurd rfl hi
    · by_cases hic : i = current
      · rw [hic, h.parent]
        exact hdir
      · rw [h.other i hin hic] at hi ⊢
        exact hv i hi

lemma NewNode.dirsIn_iff {ps : List CString} (hw : walk (links v) root ps = some current)
    (hx : x.children = []) (habsent : target (links v current) x.name.val = none)
    (S : Set (List CString)) :
    DirsIn w root S ↔ DirsIn v root S ∧ (x.type = .dir → ps ++ [x.name.val] ∈ S) := by
  have hnone : v.entry root (ps ++ [x.name.val]) = none := by
    rw [entry_eq_none]
    exact walk_missing hw habsent []
  have hentry : ∀ ns, w.entry root ns = some .dir ↔ v.entry root ns = some .dir ∨
      x.type = .dir ∧ ns = ps ++ [x.name.val] := by
    intro ns
    rw [h.entry_eq hr hw hx, gain]
    by_cases hns : ns = ps ++ [x.name.val]
    · rw [hns, hnone, Option.none_or, if_pos rfl]
      cases x.type <;> simp [InodeType.entry]
    · rw [if_neg hns, Option.or_none]
      simp [hns]
  constructor
  · exact fun hd => ⟨fun ns hne hns => hd ns hne ((hentry ns).mpr (.inl hns)),
      fun ht => hd _ (by simp) ((hentry _).mpr (.inr ⟨ht, rfl⟩))⟩
  · rintro ⟨hd, hnew⟩ ns hne hns
    rcases (hentry ns).mp hns with hold | ⟨ht, rfl⟩
    · exact hd ns hne hold
    · exact hnew ht

end NewNode

structure Effect (v w : Vfs) (root fs : ℕ) (dirOk : Prop) (new : List (List CString)) : Prop where
  ready : Ready w root fs
  linked : Linked w root
  onlyDirs : OnlyDirs w ↔ OnlyDirs v ∧ dirOk
  dirsIn : ∀ S, DirsIn w root S ↔ DirsIn v root S ∧ ∀ ns ∈ new, ns ∈ S

section Effect

variable {u v w : Vfs} {root fs : ℕ} {a b : Prop} {ms ns : List (List CString)}

lemma Effect.trans (h : Effect u v root fs a ms) (g : Effect v w root fs b ns) :
    Effect u w root fs (a ∧ b) (ms ++ ns) where
  ready := g.ready
  linked := g.linked
  onlyDirs := by rw [g.onlyDirs, h.onlyDirs, and_assoc]
  dirsIn S := by
    rw [g.dirsIn, h.dirsIn, and_assoc]
    simp only [List.mem_append, or_imp, forall_and]

lemma Effect.source (h : Effect u w root fs a ns) (hn : v.nodes = u.nodes) : Effect v w root fs a ns where
  ready := h.ready
  linked := h.linked
  onlyDirs := by
    rw [h.onlyDirs, OnlyDirs, OnlyDirs, hn]
  dirsIn S := by
    rw [h.dirsIn, DirsIn, DirsIn, entry_congr hn]

lemma Effect.of_nodes (hr : Ready w root fs) (hl : Linked v root) (hn : w.nodes = v.nodes) (ha : a) :
    Effect v w root fs a [] where
  ready := hr
  linked := hl.congr hn
  onlyDirs := by simp only [OnlyDirs, hn, ha, and_true]
  dirsIn S := by simp only [DirsIn, entry_congr hn, List.not_mem_nil, false_implies, implies_true, and_true]

lemma Effect.congr (h : Effect v w root fs a ns) (hab : a ↔ b) : Effect v w root fs b ns where
  ready := h.ready
  linked := h.linked
  onlyDirs := by rw [h.onlyDirs, hab]
  dirsIn := h.dirsIn

lemma Effect.formed_iff (h : Effect v w root fs a ns) (ho : OnlyDirs v) {S T : Set (List CString)}
    (hd : DirsIn v root S) (hST : S ⊆ T) :
    OnlyDirs w ∧ DirsIn w root T ↔ a ∧ ∀ m ∈ ns, m ∈ T := by
  have hT : DirsIn v root T := fun m hne hm => hST (hd m hne hm)
  rw [h.onlyDirs, h.dirsIn]
  simp only [ho, hT, true_and]

end Effect

section Create

variable {v w : Vfs} {root fs current : ℕ} {cs : List CString} {t : CString}

lemma NewNode.effect {x : VfsNode} (h : NewNode v w current x) (hr : Ready v root fs)
    (hl : Linked v root) (hw : walk (links v) root cs = some current) (hx : x.children = [])
    (hp : x.parent = some current) (habsent : target (links v current) x.name.val = none) :
    Effect v w root fs ((v.nodes current).type = .dir)
      (if x.type = .dir then [cs ++ [x.name.val]] else []) where
  ready := h.ready hr (hr.rooted.walk_lt hw) hx
  linked := h.linked hr.rooted hl ⟨cs, hw⟩ hx hp habsent
  onlyDirs := h.onlyDirs_iff hr.rooted (hr.rooted.walk_lt hw) hx
  dirsIn S := by
    rw [h.dirsIn_iff hr.rooted hw hx habsent]
    split
    · simp [*]
    · simp [*]

lemma createFile_effect (h : Ready v root fs) (hl : Linked v root)
    (hw : walk (links v) root cs = some current) (ht : t.take 31 = t) {rel : CString} {fd : Option ℕ}
    (he : createFile v (rootMount root fs) current rel (some t) = (fd, w)) :
    Effect v w root fs (target (links v current) t = none → v.ramfs.Room rel → Memory v 0 →
        (v.nodes current).type = .dir) [] ∧
      ∀ ns, w.ramfs.entry ns = some .dir ↔ v.ramfs.entry ns = some .dir := by
  have hready := createFile_ready h (h.rooted.walk_lt hw) he
  have hends := createFile_ends h.sound (rootMount root fs) (h.rooted.walk_lt hw) rel t
  obtain ⟨hentry, hroom⟩ := Ramfs.create_entry v.ramfs h.sound rel
  have hdirs : ∀ ns, (v.ramfs.ramfsCreate rel).2.entry ns = some .dir ↔
      v.ramfs.entry ns = some .dir := by
    intro ns
    rw [hentry, gain]
    cases v.ramfs.entry ns with
    | some e => rw [Option.some_or]
    | none =>
      rw [Option.none_or]
      split
      · cases (v.ramfs.ramfsCreate rel).1 <;> simp
      · simp
  rw [he] at hends
  -- where a node was made, the conditions hold and its type is what is asked for
  have hmade : ∀ {idx : ℕ} {u : Vfs}, target (links v current) t = none →
      (v.ramfs.ramfsCreate rel).1 = some idx → v.ramfs.heap.outcome v.ramfs.heap.calls ≠ none →
      NewNode { v with ramfs := (v.ramfs.ramfsCreate rel).2 } u current
        ⟨strncpy 31 t, .file, fs, idx, some current, []⟩ →
      Effect v u root fs (target (links v current) t = none → v.ramfs.Room rel → Memory v 0 →
        (v.nodes current).type = .dir) [] ∧
      ∀ ns, u.ramfs.entry ns = some .dir ↔ v.ramfs.entry ns = some .dir := by
    intro idx u habsent hres hout hnew
    have heffect := hnew.effect (h.create rel) (hl.congr rfl) hw rfl rfl
      (by simp only [strncpy, ht]; exact habsent)
    refine ⟨⟨heffect.ready, heffect.linked, heffect.onlyDirs.trans (and_congr_right fun _ => ?_),
      heffect.dirsIn⟩, fun ns => ?_⟩
    · exact ⟨fun hdir _ _ _ => hdir, fun hdir => hdir habsent (hroom.mp (by rw [hres]; simp)) hout⟩
    · rw [Ramfs.entry_congr hnew.inodes]
      exact hdirs ns
  cases hends with
  | taken htaken => exact ⟨.of_nodes hready hl rfl fun habsent => absurd habsent htaken, fun _ => Iff.rfl⟩
  | refused habsent hres =>
    exact ⟨.of_nodes hready hl rfl fun _ hr => absurd hres (hroom.mpr hr), hdirs⟩
  | noMemory habsent hres hout => exact ⟨.of_nodes hready hl rfl fun _ _ hm => absurd hout hm, hdirs⟩
  | noDescriptor habsent hres hout hnew => exact hmade habsent hres hout hnew
  | opened habsent hres hout hnew =>
    obtain ⟨heffect, hd⟩ := hmade habsent hres hout hnew
    exact ⟨⟨hready, heffect.linked.congr rfl, heffect.onlyDirs, heffect.dirsIn⟩, hd⟩

def CanMake (v : Vfs) (cs : List CString) (t : CString) : Prop :=
  v.ramfs.entry cs = some .dir ∧ v.ramfs.entry (cs ++ [t]) = none ∧ 0 < v.slots

lemma DirMade.entry_dir {child : Option ℕ} (hd : DirMade v w root fs current cs t child)
    (h : Ramfs.Sound v.ramfs.inodes) (hw : ∀ c ∈ cs, IsWord isSlash c) (ht : IsWord isSlash t)
    (hlen : (join slash (cs ++ [t])).length ≤ 255) (htake : t.take 31 = t) (ns : List CString) :
    w.ramfs.entry ns = some .dir ↔
      v.ramfs.entry ns = some .dir ∨ ns = cs ++ [t] ∧ CanMake v cs t := by
  have hroom : v.ramfs.Room (join slash (cs ++ [t])) ↔ CanMake v cs t := room_join h hw ht hlen
  rcases hd.ramfs with ⟨hr, hentry, _, _⟩ | ⟨hr, hsame⟩
  · rw [hentry, htake, gain]
    by_cases hns : ns = cs ++ [t]
    · rw [hns, (hroom.mp hr).2.1]
      simp [hroom.mp hr]
    · simp [hns]
  · rw [Ramfs.entry_congr hsame]
    simp [← hroom, hr]

lemma createDir_effect (h : Ready v root fs) (hl : Linked v root) {path : CBuffer 256}
    (hw : walk (links v) root cs = some current) (habsent : target (links v current) t = none)
    (ht : t.take 31 = t) {child : ℕ}
    (hdir : createDir v (rootMount root fs) current path t = (some child, w)) :
    Effect v w root fs ((v.nodes current).type = .dir) [cs ++ [t]] ∧ (w.nodes child).type = .dir := by
  rcases createDir_cases h.sound (rootMount root fs) (h.rooted.walk_lt hw) path t with
    ⟨_, he⟩ | ⟨_, fsFd, w', he, hnew⟩
  · rw [hdir] at he
    cases he
  · rw [hdir] at he
    cases he
    have hheap := (Ramfs.mkdir_cases h.sound (appendPath path t).val).1
    have heffect := hnew.effect (h.mkdir _) (hl.congr rfl) hw rfl rfl
      (by simp only [strncpy, ht]; exact habsent)
    have hself := hnew.self
    simp only [strncpy, ht, if_true] at heffect
    simp only [hheap] at hself
    exact ⟨⟨heffect.ready, heffect.linked, heffect.onlyDirs, heffect.dirsIn⟩,
      congrArg VfsNode.type hself⟩

lemma createDir_failed (h : Ready v root fs) (hl : Linked v root) {path : CBuffer 256}
    (hc : current < v.ramfs.heap.calls)
    (hdir : createDir v (rootMount root fs) current path t = (none, w)) : Effect v w root fs True [] := by
  have hready := createDir_ready h (rootMount root fs) hc path t
  rw [hdir] at hready
  rcases createDir_cases h.sound (rootMount root fs) hc path t with ⟨_, he⟩ | ⟨_, _, _, he, _⟩
  · rw [hdir] at he
    cases he
    exact .of_nodes hready hl rfl trivial
  · rw [hdir] at he
    cases he

end Create

def ramfsDirs (v : Vfs) : Set (List CString) := {ns | ramfsType v.ramfs ns = some .dir}

/-- The nodes that `vfs_create` makes for the path go below directories, a directory only where the RAM
file system has had one or can make one. -/
structure Grounded (v : Vfs) (root : ℕ) (seen : Set (List CString)) (rel : CString) : Prop where
  file : ∀ cs t node, Ramfs.components rel = cs ++ [t] → walk (links v) root cs = some node →
    target (links v node) t = none → v.ramfs.Room rel → Memory v 0 → (v.nodes node).type = .dir
  dir : ∀ cs t u us node, Ramfs.components rel = cs ++ t :: u :: us →
    walk (links v) root cs = some node → target (links v node) t = none → Memory v 0 →
      (v.nodes node).type = .dir ∧ (cs ++ [t] ∈ seen ∨ CanMake v cs t)
  below : ∀ t u x us, Ramfs.components rel = t :: u :: x :: us → target (links v root) t = none →
    Memory v 0 → Memory v 1 →
      [t, u] ∈ seen ∨ CanMake v [t] u ∨ CanMake v [] t ∧ 1 < v.slots

section Seen

variable {v w : Vfs} {root fs : ℕ} {seen : Set (List CString)} {ns : List CString}

lemma Ready.mem_ramfsDirs (h : Ready v root fs) (hw : ∀ c ∈ ns, IsWord isSlash c)
    (hlen : (join slash ns).length ≤ 255) : ns ∈ ramfsDirs v ↔ v.ramfs.entry ns = some .dir := by
  change ramfsType v.ramfs ns = some .dir ↔ _
  rw [h.ramfsType_eq hw hlen, Ramfs.entry_eq_dir, Option.map_eq_some_iff]

lemma Ready.mem_seen (h : Ready v root fs) (hwr : Ready w root fs) (hsub : ramfsDirs v ⊆ seen)
    (hw : ∀ c ∈ ns, IsWord isSlash c) (hlen : (join slash ns).length ≤ 255) {P : Prop}
    (hdir : w.ramfs.entry ns = some .dir ↔ v.ramfs.entry ns = some .dir ∨ P) :
    ns ∈ seen ∪ ramfsDirs w ↔ ns ∈ seen ∨ P := by
  rw [Set.mem_union, hwr.mem_ramfsDirs hw hlen, hdir, ← h.mem_ramfsDirs hw hlen, ← or_assoc,
    or_iff_left_of_imp (@hsub ns)]

lemma DirMade.canMake_below {current : ℕ} {t u : CString} {child : Option ℕ}
    (hd : DirMade v w root fs current [] t child) (h : Ramfs.Sound v.ramfs.inodes)
    (ht : IsWord isSlash t) (hlen : t.length ≤ 255) (htake : t.take 31 = t) :
    CanMake w [t] u ↔ CanMake v [t] u ∨ CanMake v [] t ∧ 1 < v.slots := by
  have hroom : v.ramfs.Room (join slash ([] ++ [t])) ↔ CanMake v [] t :=
    room_join h (by simp) ht (by simpa using hlen)
  rcases hd.ramfs with ⟨hr, hentry, hslots, _⟩ | ⟨hr, hsame⟩
  · have hmake := hroom.mp hr
    have hone : v.ramfs.entry [t] = none := hmake.2.1
    have htwo : v.ramfs.entry ([t] ++ [u]) = none := by
      by_contra hne
      exact Ramfs.entry_of_append hne hone
    have hdir : w.ramfs.entry [t] = some .dir := by
      rw [hentry, gain, hone, htake]
      simp
    have hnone : w.ramfs.entry ([t] ++ [u]) = none := by
      rw [hentry, gain, htwo, htake]
      simp
    simp only [CanMake, hdir, hnone, hone, reduceCtorEq, true_and, false_and, false_or]
    exact ⟨fun hpos => ⟨hmake, by omega⟩, fun hpos => by omega⟩
  · have hslots : w.slots = v.slots := by rw [Vfs.slots, hsame, Vfs.slots]
    simp only [CanMake, Ramfs.entry_congr hsame, hslots]
    exact ⟨.inl, fun hc => hc.resolve_right fun hm => hr (hroom.mpr hm.1)⟩

end Seen

section Call

variable {v w : Vfs} {root fs : ℕ} {seen : Set (List CString)} {rel : CString} {cs us : List CString}
  {t u : CString} {node : ℕ}

lemma grounded_found (hts : Ramfs.components rel = cs ++ [t])
    (hw : walk (links v) root cs = some node) :
    Grounded v root seen rel ↔ (target (links v node) t = none → v.ramfs.Room rel → Memory v 0 →
      (v.nodes node).type = .dir) := by
  refine ⟨fun hg => hg.file cs t node hts hw, fun hdir => ⟨?_, ?_, ?_⟩⟩
  · intro ds u i hds hwi habsent hroom hmem
    obtain ⟨rfl, hut⟩ := List.append_inj' (hts.symm.trans hds) rfl
    cases hut
    rw [hw, Option.some.injEq] at hwi
    subst hwi
    exact hdir habsent hroom hmem
  · intro ds u x xs i hds hwi habsent _
    exact absurd habsent (not_missing (hts.symm.trans hds) hw hwi)
  · intro u x y ys hds habsent _ _
    have hboth : cs ++ [t] = [] ++ u :: x :: y :: ys := hts.symm.trans hds
    exact absurd habsent (not_missing hboth hw rfl)

lemma grounded_missing (hts : Ramfs.components rel = cs ++ t :: u :: us)
    (hw : walk (links v) root cs = some node) (habsent : target (links v node) t = none) :
    Grounded v root seen rel ↔ (Memory v 0 →
      (v.nodes node).type = .dir ∧ (cs ++ [t] ∈ seen ∨ CanMake v cs t)) ∧
      (cs = [] → us ≠ [] → Memory v 0 → Memory v 1 →
        [t, u] ∈ seen ∨ CanMake v [t] u ∨ CanMake v [] t ∧ 1 < v.slots) := by
  constructor
  · refine fun hg => ⟨hg.dir cs t u us node hts hw habsent, ?_⟩
    rintro rfl hus
    obtain ⟨x, xs, rfl⟩ := List.exists_cons_of_ne_nil hus
    cases hw
    exact hg.below t u x xs hts habsent
  · rintro ⟨hdir, hbelow⟩
    refine ⟨?_, ?_, ?_⟩
    · intro ds y i hds hwi hai _ _
      obtain ⟨_, _, hnil⟩ := missing_unique (hts.symm.trans hds) hw habsent hwi hai
      cases hnil
    · intro ds y z zs i hds hwi hai hmem
      obtain ⟨rfl, rfl, _⟩ := missing_unique (hts.symm.trans hds) hw habsent hwi hai
      rw [hw, Option.some.injEq] at hwi
      subst hwi
      exact hdir hmem
    · intro y z x xs hds hai h0 h1
      have hboth : cs ++ t :: u :: us = [] ++ y :: z :: x :: xs := hts.symm.trans hds
      obtain ⟨rfl, rfl, hus⟩ := missing_unique hboth hw habsent rfl hai
      obtain ⟨rfl, rfl⟩ := List.cons.inj hus
      exact hbelow rfl (List.cons_ne_nil x xs) h0 h1

variable (h : Ready v root fs) (hl : Linked v root) (hshort : ∀ c ∈ Ramfs.components rel, c.length ≤ 31)

include h hl hshort

lemma first_made {next : Option Cursor} {path : CBuffer 256} {child : ℕ} {x : Vfs}
    (hts : Ramfs.components rel = cs ++ t :: u :: us) (hw : walk (links v) root cs = some node)
    (habsent : target (links v node) t = none) (hpath : path.val = join slash cs)
    (hdir : createDir (v.setCursor next) (rootMount root fs) node path t = (some child, x)) :
    DirMade v x root fs node cs t (some child) ∧ walk (links x) root (cs ++ [t]) = some child ∧
      (x.nodes child).type = .dir ∧ Effect v x root fs ((v.nodes node).type = .dir) [cs ++ [t]] ∧
      ∀ ns, x.ramfs.entry ns = some .dir ↔
        v.ramfs.entry ns = some .dir ∨ ns = cs ++ [t] ∧ CanMake v cs t := by
  have hlt : t.length ≤ 31 := hshort t (by rw [hts]; simp)
  obtain ⟨hwcs, hwt, _, hlen⟩ := dir_words hts
  have hmade := h.dirMade hts hw hpath hdir
  have hchild := hmade.walk_child hw habsent
  rw [if_pos hlt] at hchild
  obtain ⟨heffect, htype⟩ := createDir_effect (v := v.setCursor next) (h.cursor next) (hl.congr rfl)
    hw habsent (List.take_of_length_le hlt) hdir
  exact ⟨hmade, hchild, htype, heffect.source rfl,
    hmade.entry_dir h.sound hwcs hwt hlen.le (List.take_of_length_le hlt)⟩

variable (ho : OnlyDirs v) (hd : DirsIn v root seen) (hsub : ramfsDirs v ⊆ seen)

include ho hd hsub

lemma formed_made {next next' : Option Cursor} {path : CBuffer 256} {child : ℕ} {x : Vfs}
    {fd : Option ℕ} (hts : Ramfs.components rel = cs ++ t :: u :: us)
    (hw : walk (links v) root cs = some node) (habsent : target (links v node) t = none)
    (hpath : path.val = join slash cs)
    (hdir : createDir (v.setCursor next) (rootMount root fs) node path t = (some child, x))
    (hend : cs ≠ [] ∨ us = [])
    (he : createFile (x.setCursor next') (rootMount root fs) child rel (some u) = (fd, w)) :
    Linked w root ∧ (OnlyDirs w ∧ DirsIn w root (seen ∪ ramfsDirs w) ↔ Grounded v root seen rel) := by
  have hut : u.take 31 = u := List.take_of_length_le (hshort u (by rw [hts]; simp))
  obtain ⟨hwcs, hwt, _, hlen⟩ := dir_words hts
  obtain ⟨hmade, hchild, htype, hfirst, hentry⟩ := first_made h hl hshort hts hw habsent hpath hdir
  obtain ⟨hmem, _⟩ := hmade.made child rfl
  obtain ⟨hlast, hdirs⟩ := createFile_effect (hfirst.ready.cursor next') (hfirst.linked.congr rfl)
    hchild hut he
  have heffect : Effect v w root fs ((v.nodes node).type = .dir) [cs ++ [t]] :=
    (hfirst.trans (hlast.source rfl)).congr (and_iff_left fun _ _ _ => htype)
  refine ⟨heffect.linked, ?_⟩
  rw [heffect.formed_iff ho hd Set.subset_union_left, grounded_missing hts hw habsent]
  have hplace : cs ++ [t] ∈ seen ∪ ramfsDirs w ↔ cs ++ [t] ∈ seen ∨ CanMake v cs t := by
    refine h.mem_seen heffect.ready hsub ?_ hlen.le ?_
    · simpa [or_imp, forall_and] using And.intro hwcs hwt
    · rw [hdirs]
      exact (hentry _).trans (by simp)
  simp only [List.mem_singleton, forall_eq, hplace, hmem, true_implies]
  refine ⟨fun hboth => ⟨hboth, fun hcs hus => ?_⟩, fun hboth => hboth.1⟩
  exact absurd (hend.resolve_left (not_not.mpr hcs)) hus

omit hshort hsub in
lemma formed_failed {next : Option Cursor} {path : CBuffer 256}
    (hts : Ramfs.components rel = cs ++ t :: u :: us) (hw : walk (links v) root cs = some node)
    (habsent : target (links v node) t = none) (hpath : path.val = join slash cs)
    (hdir : createDir (v.setCursor next) (rootMount root fs) node path t = (none, w)) :
    Linked w root ∧ (OnlyDirs w ∧ DirsIn w root (seen ∪ ramfsDirs w) ↔ Grounded v root seen rel) := by
  have hmem := ((h.dirMade hts hw hpath hdir).failed rfl).1
  have hlt : node < (v.setCursor next).ramfs.heap.calls := h.rooted.walk_lt hw
  have heffect : Effect v w root fs True [] :=
    (createDir_failed (h.cursor next) (hl.congr rfl) hlt hdir).source rfl
  refine ⟨heffect.linked, ?_⟩
  rw [heffect.formed_iff ho hd Set.subset_union_left, grounded_missing hts hw habsent]
  exact iff_of_true ⟨trivial, by simp⟩ ⟨fun h0 => absurd h0 hmem, fun _ _ h0 => absurd h0 hmem⟩

section Twice

variable {x : CString} {next next' : Option Cursor} {path path' : CBuffer 256} {child : ℕ} {y : Vfs}
  (hts : Ramfs.components rel = t :: u :: x :: us) (habsent : target (links v root) t = none)
  (hpath : path.val = [])
  (hdir : createDir (v.setCursor next) (rootMount root fs) root path t = (some child, y))
  (hpath' : path'.val = t)

include hts habsent hpath hdir hpath'

lemma formed_failedTwice
    (hdir' : createDir (y.setCursor next') (rootMount root fs) child path' u = (none, w)) :
    Linked w root ∧ (OnlyDirs w ∧ DirsIn w root (seen ∪ ramfsDirs w) ↔ Grounded v root seen rel) := by
  have hut : u.take 31 = u := List.take_of_length_le (hshort u (by rw [hts]; simp))
  have hts' : Ramfs.components rel = [] ++ t :: u :: x :: us := hts
  obtain ⟨hwt, hwu, _, hlen⟩ := dir_words (show _ = [t] ++ u :: x :: us from hts)
  obtain ⟨hmade, hchild, _, hfirst, hentry⟩ :=
    first_made h hl hshort hts' rfl habsent hpath hdir
  obtain ⟨hmem, _⟩ := hmade.made child rfl
  have hmade' := h.dirMade_below hts hpath hdir hpath' hdir'
  have hmem' := (hmade'.failed rfl).1
  rw [hmade.memory] at hmem'
  have hlt : child < (y.setCursor next').ramfs.heap.calls := hfirst.ready.rooted.walk_lt hchild
  have hlast := createDir_failed (hfirst.ready.cursor next') (hfirst.linked.congr rfl) hlt hdir'
  have heffect : Effect v w root fs True [[t]] :=
    (hfirst.trans (hlast.source rfl)).congr (iff_of_true ⟨h.rooted.root_dir, trivial⟩ trivial)
  refine ⟨heffect.linked, ?_⟩
  rw [heffect.formed_iff ho hd Set.subset_union_left,
    grounded_missing hts' rfl habsent]
  have hone : [t] ∈ seen ∪ ramfsDirs w ↔ [t] ∈ seen ∨ CanMake v [] t := by
    apply h.mem_seen heffect.ready hsub hwt ((length_join_le_append slash [t] [u]).trans hlen.le)
    rw [hmade'.entry_dir hmade.ready.sound hwt hwu hlen.le hut]
    simp [hentry]
  simp only [true_and, List.mem_singleton, forall_eq, hone, hmem, hmem', h.rooted.root_dir,
    List.nil_append, true_implies, false_implies, implies_true, and_true]

lemma formed_madeTwice {next'' : Option Cursor} {child' : ℕ} {z : Vfs} {fd : Option ℕ}
    (hdir' : createDir (y.setCursor next') (rootMount root fs) child path' u = (some child', z))
    (he : createFile (z.setCursor next'') (rootMount root fs) child' rel (some x) = (fd, w)) :
    Linked w root ∧ (OnlyDirs w ∧ DirsIn w root (seen ∪ ramfsDirs w) ↔ Grounded v root seen rel) := by
  have htake : ∀ c ∈ Ramfs.components rel, c.take 31 = c :=
    fun c hc => List.take_of_length_le (hshort c hc)
  have hut : u.take 31 = u := htake u (by rw [hts]; simp)
  have hxt : x.take 31 = x := htake x (by rw [hts]; simp)
  have hts' : Ramfs.components rel = [] ++ t :: u :: x :: us := hts
  obtain ⟨hwt, hwu, _, hlen⟩ := dir_words (show _ = [t] ++ u :: x :: us from hts)
  have hwt' : IsWord isSlash t := hwt t (by simp)
  have hlent : (join slash ([] ++ [t])).length ≤ 255 :=
    (length_join_le_append slash [t] [u]).trans hlen.le
  obtain ⟨hmade, hchild, htype, hfirst, hentry⟩ :=
    first_made h hl hshort hts' rfl habsent hpath hdir
  obtain ⟨hmem, hleaf, _⟩ := hmade.made child rfl
  have hmade' := h.dirMade_below hts hpath hdir hpath' hdir'
  obtain ⟨hmem', _⟩ := hmade'.made child' rfl
  rw [hmade.memory] at hmem'
  have habsent' : target (links y child) u = none := by
    rw [hleaf]
    rfl
  have hchild' := hmade'.walk_child hchild habsent'
  rw [if_pos (hshort u (by rw [hts]; simp))] at hchild'
  obtain ⟨hsecond, htype'⟩ := createDir_effect (v := y.setCursor next') (hfirst.ready.cursor next')
    (hfirst.linked.congr rfl) hchild habsent' hut hdir'
  obtain ⟨hlast, hdirs⟩ := createFile_effect (hsecond.ready.cursor next'') (hsecond.linked.congr rfl)
    hchild' hxt he
  have heffect : Effect v w root fs True [[t], [t, u]] :=
    ((hfirst.trans (hsecond.source rfl)).trans (hlast.source rfl)).congr
      (iff_of_true ⟨⟨h.rooted.root_dir, htype⟩, fun _ _ _ => htype'⟩ trivial)
  refine ⟨heffect.linked, ?_⟩
  rw [heffect.formed_iff ho hd Set.subset_union_left,
    grounded_missing hts' rfl habsent]
  have hentry' := hmade'.entry_dir hmade.ready.sound hwt hwu hlen.le hut
  have hone : [t] ∈ seen ∪ ramfsDirs w ↔ [t] ∈ seen ∨ CanMake v [] t := by
    apply h.mem_seen heffect.ready hsub hwt hlent
    rw [hdirs]
    exact (hentry' [t]).trans (by simp [hentry])
  have htwo : [t, u] ∈ seen ∪ ramfsDirs w ↔
      [t, u] ∈ seen ∨ CanMake v [t] u ∨ CanMake v [] t ∧ 1 < v.slots := by
    refine h.mem_seen heffect.ready hsub ?_ hlen.le ?_
    · simpa [or_imp, forall_and] using And.intro hwt' hwu
    · rw [hdirs]
      apply (hentry' [t, u]).trans
      simp [hentry, hmade.canMake_below h.sound hwt' (by simpa using hlent)
        (htake t (by rw [hts]; simp))]
  simp only [true_and, List.mem_cons, List.not_mem_nil, or_false, forall_eq_or_imp, forall_eq, hone, htwo,
    hmem, hmem', h.rooted.root_dir, List.nil_append, true_implies, ne_eq, reduceCtorEq, not_false_eq_true]

end Twice

lemma create_formed {path : CString} (hrel : rel = relOf path) (hp : path.head? = some slash)
    {fd : Option ℕ} (he : v.vfsCreate path = some (fd, w)) :
    Linked w root ∧ (OnlyDirs w ∧ DirsIn w root (seen ∪ ramfsDirs w) ↔ Grounded v root seen rel) := by
  subst hrel
  by_cases hts : Ramfs.components (relOf path) = []
  · rw [h.mounted.create_null hp hts] at he
    obtain ⟨hlast, _⟩ := createFile_effect (h.cursor (some ⟨.vfsCreate, []⟩)) (hl.congr rfl)
      (walk_nil (links v) root) (show nullString.take 31 = nullString from rfl) (Option.some.inj he)
    have heffect := hlast.source (v := v) rfl
    refine ⟨heffect.linked, ?_⟩
    rw [heffect.formed_iff ho hd Set.subset_union_left]
    refine iff_of_true ⟨fun _ _ _ => h.rooted.root_dir, by simp⟩ ⟨?_, ?_, ?_⟩
    · simp [hts]
    · simp [hts]
    · simp [hts]
  · obtain ⟨out, hends, hcreate⟩ := h.create_ends hp hts
    rw [he] at hcreate
    generalize hcs : Ramfs.components (relOf path) = ts at hends
    cases hends with
    | @found cs t node next hts hw =>
      have hts' := hcs.trans hts
      have htt : t.take 31 = t := List.take_of_length_le (hshort t (by rw [hts']; simp))
      obtain ⟨hlast, _⟩ := createFile_effect (h.cursor next) (hl.congr rfl) hw htt
        (Option.some.inj hcreate.symm)
      have heffect := hlast.source (v := v) rfl
      refine ⟨heffect.linked, ?_⟩
      rw [heffect.formed_iff ho hd Set.subset_union_left,
        show Grounded v root seen (relOf path) ↔ _ from grounded_found hts' hw]
      simp only [List.not_mem_nil, false_implies, implies_true, and_true]
      rfl
    | failed hts hw habsent hpath hdir =>
      cases hcreate
      exact formed_failed h hl ho hd (hcs.trans hts) hw habsent hpath hdir
    | made next' hts hw habsent hpath hdir hend =>
      exact formed_made h hl hshort ho hd hsub (hcs.trans hts) hw habsent hpath hdir hend
        (Option.some.inj hcreate.symm)
    | lost => cases hcreate
    | failedTwice hts habsent hpath hdir hpath' hdir' =>
      cases hcreate
      exact formed_failedTwice h hl hshort ho hd hsub (hcs.trans hts) habsent hpath hdir hpath' hdir'
    | madeTwice next'' hts habsent hpath hdir hpath' hdir' =>
      exact formed_madeTwice h hl hshort ho hd hsub (hcs.trans hts) habsent hpath hdir hpath' hdir'
        (Option.some.inj hcreate.symm)

end Call

/-- Only directories have children, every child knows its parent, siblings have different names, and
each directory below a mounted root lies on a list of names in `seen`. -/
structure Formed (v : Vfs) (seen : Set (List CString)) : Prop where
  onlyDirs : ∀ i, (v.nodes i).children ≠ [] → (v.nodes i).type = .dir
  parent : ∀ i, ∀ c ∈ (v.nodes i).children, (v.nodes c).parent = some i
  names : ∀ i, ((v.nodes i).children.map fun c => (v.nodes c).name.val).Nodup
  backed : ∀ m ∈ v.mounts, ∀ i, ∀ c ∈ (v.nodes i).children, (v.nodes c).type = .dir →
    ∃ ns ∈ seen, walk (links v) m.node ns = some c

lemma Linked.formed_iff {v : Vfs} {root fs : ℕ} (hl : Linked v root) (h : Ready v root fs)
    (seen : Set (List CString)) : Formed v seen ↔ OnlyDirs v ∧ DirsIn v root seen := by
  have hentry : ∀ {ns c}, walk (links v) root ns = some c →
      (v.entry root ns = some .dir ↔ (v.nodes c).type = .dir) := by
    intro ns c hw
    rw [entry, hw, Option.map_some]
    cases (v.nodes c).type <;> simp [InodeType.entry]
  have hmount : v.mounts = [rootMount root fs] := h.mounted
  constructor
  · intro hf
    refine ⟨hf.onlyDirs, fun ns hne hns => ?_⟩
    obtain ⟨c, hw, _⟩ := Option.map_eq_some_iff.mp hns
    obtain ⟨ms, n, rfl⟩ := (List.eq_nil_or_concat ns).resolve_left hne
    have hdir := (hentry hw).mp hns
    have hlast := hw
    rw [List.concat_eq_append, walk_concat] at hlast
    obtain ⟨i, _, hi⟩ := Option.bind_eq_some_iff.mp hlast
    obtain ⟨ks, hks, hk⟩ := hf.backed (rootMount root fs) (by rw [hmount]; simp) i c
      (mem_links.mp (mem_of_target hi)).1 hdir
    rwa [← h.rooted.tree.walk_injective hk hw]
  · rintro ⟨ho, hd⟩
    refine ⟨ho, hl.parent, fun i => ?_, fun m hm i c hc hdir => ?_⟩
    · have hnames := hl.names i
      rwa [links, List.map_map] at hnames
    · rw [hmount, List.mem_singleton] at hm
      subst hm
      obtain ⟨ns, hns⟩ := hl.found i c hc
      refine ⟨ns, hd ns ?_ ((hentry hns).mpr hdir), hns⟩
      rintro rfl
      cases hns
      exact h.rooted.tree.root i _ (mem_links.mpr ⟨hc, rfl⟩)

/-- A call, with the lists of names at which the RAM file system has had a directory. -/
def TraceStep (s : Vfs × Set (List CString)) (l : Op × Result) (t : Vfs × Set (List CString)) : Prop :=
  Step s.1 l t.1 ∧ t.2 = s.2 ∪ ramfsDirs t.1

lemma trace_next {v : Vfs} {op : Op} {res : Result} (h : (v.exec op).map Prod.fst = some res)
    (seen : Set (List CString)) :
    TraceStep (v, seen) (op, res) (v.next op, seen ∪ ramfsDirs (v.next op)) :=
  ⟨step_next h, rfl⟩

def ShortPath (path : CString) : Prop := path.length < 256 ∧ ∀ c ∈ tokens isSlash path, c.length ≤ 31

def ShortPaths : Op → Prop
  | .create path => ShortPath path
  | .open path => ShortPath path
  | .unlink path => ShortPath path
  | .mkdir path => ShortPath path
  | .rmdir path => ShortPath path
  | .stat path => ShortPath path
  | _ => True

def GroundedCall (v : Vfs) (root : ℕ) (seen : Set (List CString)) : Op → Prop
  | .create path => path.head? = some slash → Grounded v root seen (relOf path)
  | _ => True

structure WellFormed (v : Vfs) (seen : Set (List CString)) (root fs : ℕ) : Prop where
  ready : Ready v root fs
  linked : Linked v root
  onlyDirs : OnlyDirs v
  dirsIn : DirsIn v root seen
  seen : ramfsDirs v ⊆ seen

lemma WellFormed.step_iff {v w : Vfs} {seen : Set (List CString)} {root fs : ℕ} {l : Op × Result}
    (h : WellFormed v seen root fs) (hs : Step v l w) (hshort : ShortPaths l.1) :
    Ready w root fs ∧ Linked w root ∧
      (OnlyDirs w ∧ DirsIn w root (seen ∪ ramfsDirs w) ↔ GroundedCall v root seen l.1) := by
  have hready := h.ready.step hs
  refine ⟨hready, ?_⟩
  have hsame : w.nodes = v.nodes → Linked w root ∧ OnlyDirs w ∧ DirsIn w root (seen ∪ ramfsDirs w) := by
    intro hn
    have heffect : Effect v w root fs True [] := .of_nodes hready h.linked hn trivial
    exact ⟨heffect.linked,
      (heffect.formed_iff h.onlyDirs h.dirsIn Set.subset_union_left).mpr ⟨trivial, by simp⟩⟩
  rcases step_cases hs with ⟨path, fd, rfl, hc⟩ | hl
  · by_cases hp : path.head? = some slash
    · have hvis := visible_components hp hshort.1 hshort.2
      obtain ⟨hlinked, hiff⟩ := create_formed h.ready h.linked (fun c hc => (hvis.1 c hc).2) h.onlyDirs
        h.dirsIn h.seen rfl hp hc
      exact ⟨hlinked, hiff.trans ⟨fun hg _ => hg, fun hg => hg hp⟩⟩
    · rw [create_of_not_absolute hp] at hc
      cases hc
      exact ⟨(hsame rfl).1, iff_of_true (hsame rfl).2 fun habs => absurd habs hp⟩
  · have hquiet := quiet_step hs hl
    have hgrounded : GroundedCall v root seen l.1 := by
      obtain ⟨op, res⟩ := l
      cases op with
      | create path => exact absurd rfl (hl path)
      | _ => trivial
    exact ⟨(hsame hquiet.nodes).1, iff_of_true (hsame hquiet.nodes).2 hgrounded⟩

lemma Booted.wellFormed {v : Vfs} (h : Booted v) : WellFormed v (ramfsDirs v) 0 0 := by
  have hleaf := h.leaf
  refine ⟨h.ready, ⟨fun i c hc => ?_, fun i => ?_, fun i c hc => ?_⟩, fun i hi => absurd (hleaf i) hi,
    fun ns hne hns => ?_, subset_rfl⟩
  · rw [hleaf] at hc
    cases hc
  · rw [links, hleaf]
    exact List.nodup_nil
  · rw [hleaf] at hc
    cases hc
  · rw [entry_eq_none.mpr (walk_of_nil (by rw [links, hleaf]; rfl) hne)] at hns
    cases hns

/-- The node tree is well formed after every call of a run if and only if every `vfs_create` makes its
nodes below directories, and directories where the RAM file system has had one or can make one. -/
theorem tree_formed_iff {v₀ : Vfs} (hb : Booted v₀) {ls : List (Op × Result)}
    (hshort : ∀ l ∈ ls, ShortPaths l.1) :
    Formed v₀ (ramfsDirs v₀) ∧
      (Along TraceStep (fun _ _ s => Formed s.1 s.2) (v₀, ramfsDirs v₀) ls ↔
        Along TraceStep (fun s l _ => GroundedCall s.1 0 s.2 l.1) (v₀, ramfsDirs v₀) ls) := by
  have hwell := hb.wellFormed
  refine ⟨(hwell.linked.formed_iff hwell.ready _).mpr ⟨hwell.onlyDirs, hwell.dirsIn⟩, ?_⟩
  refine along_iff (I := fun s => WellFormed s.1 s.2 0 0) (H := fun _ l _ => ShortPaths l.1)
    (fun s l t hs hstep hl => ?_) (fun s l t hs hstep hl hg => ?_) hwell (along_of_forall _ hshort)
  · obtain ⟨hready, hlinked, hiff⟩ := hs.step_iff hstep.1 hl
    rw [hlinked.formed_iff hready, hstep.2, hiff]
  · obtain ⟨hready, hlinked, hiff⟩ := hs.step_iff hstep.1 hl
    obtain ⟨ho, hd⟩ := hiff.mpr hg
    rw [← hstep.2] at hd
    exact ⟨hready, hlinked, ho, hd, by rw [hstep.2]; exact Set.subset_union_right⟩

theorem tree_formed_iff_nested :
    Formed bootedZero (ramfsDirs bootedZero) ∧
      (Along TraceStep (fun _ _ s => Formed s.1 s.2) (bootedZero, ramfsDirs bootedZero) nested ↔
        Along TraceStep (fun s l _ => GroundedCall s.1 0 s.2 l.1) (bootedZero, ramfsDirs bootedZero)
          nested) := by
  refine tree_formed_iff bootedZero_booted fun l hl => ?_
  simp only [nested, List.mem_cons, List.not_mem_nil, or_false] at hl
  rcases hl with rfl | rfl | rfl | rfl
  · exact ⟨by decide, by decide⟩
  · trivial
  · trivial
  · exact ⟨by decide, by decide⟩

theorem directory_below_file :
    Booted bootedZero ∧ ∃ s, Run TraceStep (bootedZero, ramfsDirs bootedZero)
      [(.create (cstring "/a"), .fd (some 0)), (.create (cstring "/a/b/c"), .fd none)] s ∧
      (s.1.nodes 1).type = .file ∧ (s.1.nodes 1).children = [2] ∧ (s.1.nodes 2).type = .dir ∧
      [cstring "a", cstring "b"] ∉ s.2 ∧ ¬ Formed s.1 s.2 := by
  have hfails : ((bootedZero.next (.create (cstring "/a"))).exec (.create (cstring "/a/b/c"))).map
      Prod.fst = some (.fd none) := by
    have hcreate : ((bootedZero.next (.create (cstring "/a"))).vfsCreate (cstring "/a/b/c")).map
        Prod.fst = some none := by decide
    obtain ⟨⟨fd, v⟩, hv, hfd⟩ := Option.map_eq_some_iff.mp hcreate
    cases hfd
    simp only [exec, hv, Option.map_some]
  have hfile : (((bootedZero.next (.create (cstring "/a"))).next (.create (cstring "/a/b/c"))).nodes
      1).type = .file := by decide
  have hchild : (((bootedZero.next (.create (cstring "/a"))).next (.create (cstring "/a/b/c"))).nodes
      1).children = [2] := by decide
  refine ⟨bootedZero_booted, _, .cons (trace_next rfl _) (.cons (trace_next hfails _) (.nil _)), hfile,
    hchild, by decide, ?_, fun hf => ?_⟩
  · rintro ((hmem | hmem) | hmem)
    · exact absurd (show ramfsType _ _ = some .dir from hmem) (by decide)
    · exact absurd (show ramfsType _ _ = some .dir from hmem) (by decide)
    · exact absurd (show ramfsType _ _ = some .dir from hmem) (by decide)
  · have htype := hf.onlyDirs 1 (by rw [hchild]; simp)
    rw [hfile] at htype
    cases htype

end Vfs

end Veni.Filesystem
