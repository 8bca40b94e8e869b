import Veni.Filesystem.VfsResolve

/-! What `vfs_resolve` sees of a path beyond its components. -/

namespace Veni.Filesystem.Vfs

open Veni.Libc Veni.Lib.Tokens Veni.Lib.NameGraph

/-- `/`, or components joined with single slashes, with or without one in front. -/
def Joined (mountPath : CString) : Prop :=
  ∃ ws : List CString, (∀ w ∈ ws, IsWord isSlash w) ∧
    (mountPath = slash :: join slash ws ∨ ws ≠ [] ∧ mountPath = join slash ws)

def Forest (v : Vfs) : Prop := ∀ m ∈ v.mounts, Tree (links v) m.node

/-- After the mount point there is a component that no node can have as its name. -/
def Unnameable (mounts : List VfsMount) (path : CString) : Prop :=
  ∀ m, Chosen mounts path m → ∃ t ∈ segments m path, 31 < t.length

section Components

variable {mounts : List VfsMount} {p q : CString} {m k : VfsMount}

lemma Chosen.mem (h : Chosen mounts p m) : m ∈ mounts := by
  obtain ⟨i, hi, _⟩ := h
  exact List.mem_of_getElem? hi

lemma Chosen.matches (h : Chosen mounts p m) : Matches p m.mountPath.val := by
  obtain ⟨_, _, hm, _⟩ := h
  exact hm

lemma Chosen.unique (h : Chosen mounts p m) (hk : Chosen mounts p k) : m = k := by
  obtain ⟨i, hi, hm, hmax⟩ := h
  obtain ⟨j, hj, hkm, hkmax⟩ := hk
  have hij : i = j := by
    have h₁ := hmax j k hj hkm
    have h₂ := hkmax i m hi hm
    omega
  subst hij
  exact Option.some.inj (hi.symm.trans hj)

lemma Chosen.eq_of_path (h : Chosen mounts p m) (hk : Chosen mounts q k)
    (heq : m.mountPath.val = k.mountPath.val) : m = k := by
  obtain ⟨i, hi, hm, hmax⟩ := h
  obtain ⟨j, hj, hkm, hkmax⟩ := hk
  have hij : i = j := by
    have h₁ := hmax j k hj (heq ▸ hm)
    have h₂ := hkmax i m hi (heq ▸ hkm)
    have := congrArg List.length heq
    omega
  subst hij
  exact Option.some.inj (hi.symm.trans hj)

lemma head_join_ne {ws : List CString} (h : ∀ w ∈ ws, IsWord isSlash w) :
    (join slash ws).head? ≠ some slash := by
  cases ws with
  | nil => simp
  | cons w ws =>
    obtain ⟨hne, hw⟩ := h w List.mem_cons_self
    obtain ⟨c, cs, rfl⟩ := List.exists_cons_of_ne_nil hne
    have hc := hw c List.mem_cons_self
    rintro heq
    have hhead : (join slash ((c :: cs) :: ws)).head? = some c := by
      cases ws with
      | nil => simp
      | cons u us => simp [join_cons]
    rw [hhead, Option.some.injEq] at heq
    subst heq
    cases hc

lemma Joined.words (hj : Joined m.mountPath.val) (habs : m.mountPath.val.head? = some slash) :
    m.mountPath.val = slash :: join slash (tokens isSlash m.mountPath.val) := by
  obtain ⟨ws, hws, hpath | ⟨_, hpath⟩⟩ := hj
  · rw [hpath, tokens_delim isSlash (by decide), tokens_join isSlash (by decide) hws]
  · rw [hpath] at habs
    exact absurd habs (head_join_ne hws)

lemma Matches.head (h : Matches p m.mountPath.val) (habs : p.head? = some slash) :
    m.mountPath.val.head? = some slash := by
  obtain ⟨rest, hrest⟩ := h.isPrefix habs
  obtain ⟨c, cs, hc⟩ := List.exists_cons_of_ne_nil h.1
  rw [← hrest, hc, List.cons_append, List.head?_cons] at habs
  rw [hc, List.head?_cons, habs]

lemma Matches.tokens_eq (h : Matches p m.mountPath.val) (habs : p.head? = some slash) :
    tokens isSlash p = tokens isSlash m.mountPath.val ++ segments m p := by
  obtain ⟨_, hroot | heq | ⟨rest, hrest⟩⟩ := h
  · obtain ⟨cs, rfl⟩ : ∃ cs, p = slash :: cs := by
      cases p with
      | nil => cases habs
      | cons c cs =>
        cases habs
        exact ⟨cs, rfl⟩
    rw [segments, hroot, tokens_delim isSlash (by decide)]
    rfl
  · rw [segments, ← heq, List.drop_length, tokens_nil, List.append_nil]
  · rw [List.append_assoc, List.singleton_append] at hrest
    rw [segments, ← hrest, tokens_append_delim isSlash (by decide), List.drop_left,
      tokens_delim isSlash (by decide)]

variable (hjoined : ∀ m ∈ mounts, Joined m.mountPath.val) (hp : p.head? = some slash)
  (hq : q.head? = some slash) (heq : tokens isSlash p = tokens isSlash q)
include hjoined hp hq heq

lemma Chosen.eq_of_length (h : Chosen mounts p m) (hk : Chosen mounts q k)
    (hlen : (segments m p).length = (segments k q).length) : m = k := by
  apply h.eq_of_path hk
  rw [h.matches.tokens_eq hp, hk.matches.tokens_eq hq] at heq
  have hwords := (List.append_inj' heq hlen).1
  rw [(hjoined m h.mem).words (h.matches.head hp), (hjoined k hk.mem).words (hk.matches.head hq),
    hwords]

omit hjoined in
lemma segments_eq_of_chosen (h : Chosen mounts p m) (hk : Chosen mounts q m) :
    segments m p = segments m q := by
  rw [h.matches.tokens_eq hp, hk.matches.tokens_eq hq] at heq
  exact List.append_cancel_left heq

omit hjoined in
lemma segments_suffix (h : Chosen mounts p m) (hk : Chosen mounts q k)
    (hle : (segments m p).length ≤ (segments k q).length) : segments m p <:+ segments k q := by
  rw [h.matches.tokens_eq hp, hk.matches.tokens_eq hq] at heq
  apply List.suffix_of_suffix_length_le _ (List.suffix_append (tokens isSlash k.mountPath.val) _) hle
  exact ⟨_, heq⟩

end Components

section Resolve

variable {v : Vfs} {p : CString} {m : VfsMount} (habs : p.head? = some slash)
include habs

lemma resolve_of_chosen (hlen : p.length < 256) (h : Chosen v.mounts p m) :
    (v.vfsResolve p).1 = walk (links v) m.node (segments m p) := by
  have hrel : (relPath m p).length ≤ 255 := (length_relPath_le m p).trans (Nat.le_of_lt_succ hlen)
  rw [resolve_of_findMount habs ((findMount_eq_some habs).mpr h), segments_eq m p hrel]

lemma resolve_of_unchosen (h : ∀ m, ¬ Chosen v.mounts p m) : (v.vfsResolve p).1 = none := by
  cases hm : v.findMount p with
  | none => exact resolve_of_no_mount hm
  | some m => exact absurd ((findMount_eq_some habs).mp hm) (h m)

lemma resolve_of_unnameable (hlen : p.length < 256) (h : Unnameable v.mounts p) :
    (v.vfsResolve p).1 = none := by
  by_cases hm : ∃ m, Chosen v.mounts p m
  · obtain ⟨m, hm⟩ := hm
    obtain ⟨t, ht, hlong⟩ := h m hm
    rw [resolve_of_chosen habs hlen hm]
    cases hw : walk (links v) m.node (segments m p) with
    | none => rfl
    | some i =>
      have hname : ∀ i n j, (n, j) ∈ links v i → n.length < 32 := by
        intro i n j hj
        rw [← (mem_links.mp hj).2]
        exact (v.nodes j).name.property
      have := name_of_walk (P := fun n => n.length < 32) hname hw t ht
      omega
  · exact resolve_of_unchosen habs fun m hc => hm ⟨m, hc⟩

end Resolve

section Chain

def chainNodes (root top : ℕ) (names : List CString) (i : ℕ) : VfsNode where
  name := strncpy 31 (names.getD (i - (top + 1)) [])
  type := .dir
  fs := 0
  fsFd := 0
  parent := none
  children :=
    if i = root ∧ 0 < names.length then [top + 1]
    else if top < i ∧ i < top + names.length then [i + 1] else []

def chain (mounts : List VfsMount) (root top : ℕ) (names : List CString) : Vfs :=
  { powerOn fun _ => none with nodes := chainNodes root top names, mounts := mounts }

variable {mounts : List VfsMount} {root top : ℕ} {names : List CString}

def height (root top : ℕ) (names : List CString) (i : ℕ) : ℕ :=
  if i = root then names.length else min names.length (top + names.length - i)

lemma mem_links_chain {i c : ℕ} {n : CString} (h : (n, c) ∈ links (chain mounts root top names) i) :
    (i = root ∧ c = top + 1 ∨ top < i ∧ c = i + 1) ∧ c ≤ top + names.length ∧
      n = (strncpy 31 (names.getD (c - (top + 1)) [])).val := by
  obtain ⟨hc, hn⟩ := mem_links.mp h
  refine ⟨?_, ?_, hn.symm⟩
  · simp only [chain, chainNodes] at hc
    split at hc
    · rename_i hi
      exact Or.inl ⟨hi.1, List.mem_singleton.mp hc⟩
    · split at hc
      · rename_i hi
        exact Or.inr ⟨hi.1, List.mem_singleton.mp hc⟩
      · cases hc
  · simp only [chain, chainNodes] at hc
    split at hc
    · rw [List.mem_singleton] at hc
      omega
    · split at hc
      · rw [List.mem_singleton] at hc
        omega
      · cases hc

lemma chain_forest (htop : ∀ m ∈ mounts, m.node ≤ top) :
    Forest (chain mounts root top names) := by
  intro m hm
  have hle := htop m hm
  constructor
  · intro i i' n n' j hj hj'
    have h := mem_links_chain hj
    have h' := mem_links_chain hj'
    refine ⟨by omega, h.2.2.trans h'.2.2.symm⟩
  · intro i n hj
    have h := mem_links_chain hj
    omega

lemma chain_height (hroot : root ≤ top) {i n j} (h : (n, j) ∈ links (chain mounts root top names) i) :
    height root top names j < height root top names i := by
  obtain ⟨hij, hj, _⟩ := mem_links_chain h
  have hne : j ≠ root := by omega
  simp only [height, if_neg hne]
  split <;> omega

lemma chain_walk_le (hroot : root ≤ top) {i j : ℕ} {ns : List CString}
    (h : walk (links (chain mounts root top names)) i ns = some j) : ns.length ≤ names.length := by
  apply (length_le_of_walk (fun i n j hj => chain_height hroot hj) h).trans
  rw [height]
  split
  · exact Nat.le_refl _
  · exact Nat.min_le_left _ _

lemma links_chain (hroot : root ≤ top) {i j : ℕ} (hj : j < names.length)
    (hi : j = 0 ∧ i = root ∨ 0 < j ∧ i = top + j) :
    links (chain mounts root top names) i = [((strncpy 31 names[j]).val, top + (j + 1))] := by
  have hchildren : ((chain mounts root top names).nodes i).children = [top + (j + 1)] := by
    simp only [chain, chainNodes]
    rcases hi with ⟨rfl, rfl⟩ | ⟨hpos, rfl⟩
    · rw [if_pos ⟨rfl, hj⟩]
    · rw [if_neg (by omega), if_pos (by omega), Nat.add_assoc]
  have hname : ((chain mounts root top names).nodes (top + (j + 1))).name = strncpy 31 names[j] := by
    have hsub : top + (j + 1) - (top + 1) = j := by omega
    simp only [chain, chainNodes, hsub, List.getD_eq_getElem?_getD, List.getElem?_eq_getElem hj,
      Option.getD_some]
  rw [links, hchildren, List.map_singleton, hname]

lemma chain_walk (hroot : root ≤ top) (hshort : ∀ t ∈ names, t.length ≤ 31) {l : List CString} {i j : ℕ}
    (hl : names.drop j = l) (hi : j = 0 ∧ i = root ∨ 0 < j ∧ i = top + j) :
    walk (links (chain mounts root top names)) i l ≠ none := by
  induction l generalizing i j with
  | nil => simp
  | cons t ts ih =>
    have hj : j < names.length := by
      by_contra hj
      rw [List.drop_eq_nil_of_le (Nat.le_of_not_lt hj)] at hl
      cases hl
    rw [List.drop_eq_getElem_cons hj] at hl
    obtain ⟨ht, hts⟩ := List.cons.inj hl
    have hname : (strncpy 31 names[j]).val = t := by
      rw [ht]
      exact List.take_of_length_le (hshort t (ht ▸ List.getElem_mem hj))
    rw [walk_cons, links_chain hroot hj hi, hname, target_singleton, if_pos rfl]
    exact ih hts (Or.inr ⟨Nat.succ_pos j, rfl⟩)

end Chain

section Alike

variable {mounts : List VfsMount} {p q : CString}

def LeadAlike (mounts : List VfsMount) (p q : CString) : Prop :=
  ∀ v : Vfs, v.mounts = mounts → Forest v → (v.vfsResolve p).1 = (v.vfsResolve q).1

lemma LeadAlike.symm (h : LeadAlike mounts p q) : LeadAlike mounts q p :=
  fun v hv hf => (h v hv hf).symm

lemma exists_top (mounts : List VfsMount) : ∃ top, ∀ m ∈ mounts, m.node ≤ top := by
  induction mounts with
  | nil => exact ⟨0, by simp⟩
  | cons m ms ih =>
    obtain ⟨top, htop⟩ := ih
    refine ⟨max m.node top, ?_⟩
    rw [List.forall_mem_cons]
    exact ⟨Nat.le_max_left _ _, fun k hk => (htop k hk).trans (Nat.le_max_right _ _)⟩

variable (hp : p.head? = some slash) (hq : q.head? = some slash) (hplen : p.length < 256)
  (hqlen : q.length < 256)
include hp hq hplen hqlen

lemma LeadAlike.unnameable (h : LeadAlike mounts p q) {m : VfsMount} (hm : Chosen mounts p m)
    (hlonger : ∀ k, Chosen mounts q k → (segments m p).length < (segments k q).length) :
    Unnameable mounts p := by
  intro m' hm'
  cases hm.unique hm'
  by_contra hshort
  simp only [not_exists, not_and, Nat.not_lt] at hshort
  obtain ⟨top, htop⟩ := exists_top mounts
  have hroot := htop m hm.mem
  have hsame := h (chain mounts m.node top (segments m p)) rfl (chain_forest htop)
  rw [resolve_of_chosen (v := chain mounts m.node top (segments m p)) hp hplen hm] at hsame
  have hwalk : walk (links (chain mounts m.node top (segments m p))) m.node (segments m p) ≠ none :=
    chain_walk hroot hshort List.drop_zero (Or.inl ⟨rfl, rfl⟩)
  apply hwalk
  rw [hsame]
  by_cases hk : ∃ k, Chosen mounts q k
  · obtain ⟨k, hk⟩ := hk
    rw [resolve_of_chosen (v := chain mounts m.node top (segments m p)) hq hqlen hk]
    cases hw : walk (links (chain mounts m.node top (segments m p))) k.node (segments k q) with
    | none => rfl
    | some i => exact absurd (chain_walk_le hroot hw) (Nat.not_le_of_lt (hlonger k hk))
  · exact resolve_of_unchosen (v := chain mounts m.node top (segments m p)) hq fun k hc => hk ⟨k, hc⟩

lemma LeadAlike.unnameable_both (heq : tokens isSlash p = tokens isSlash q) (h : LeadAlike mounts p q)
    {m k : VfsMount} (hm : Chosen mounts p m) (hk : Chosen mounts q k)
    (hlt : (segments m p).length < (segments k q).length) :
    Unnameable mounts p ∧ Unnameable mounts q := by
  have hun : Unnameable mounts p := by
    apply h.unnameable hp hq hplen hqlen hm
    intro k' hk'
    cases hk.unique hk'
    exact hlt
  refine ⟨hun, fun k' hk' => ?_⟩
  cases hk.unique hk'
  obtain ⟨t, ht, hlong⟩ := hun m hm
  exact ⟨t, (segments_suffix hp hq heq hm hk hlt.le).subset ht, hlong⟩

lemma LeadAlike.chosen (hjoined : ∀ m ∈ mounts, Joined m.mountPath.val)
    (heq : tokens isSlash p = tokens isSlash q) (h : LeadAlike mounts p q) {m k : VfsMount}
    (hm : Chosen mounts p m) (hk : Chosen mounts q k) :
    (∀ m, Chosen mounts p m ↔ Chosen mounts q m) ∨ Unnameable mounts p ∧ Unnameable mounts q := by
  rcases Nat.lt_trichotomy (segments m p).length (segments k q).length with hlt | hlen | hlt
  · exact Or.inr (h.unnameable_both hp hq hplen hqlen heq hm hk hlt)
  · cases hm.eq_of_length hjoined hp hq heq hk hlen
    left
    intro m'
    constructor
    · intro hm'
      cases hm.unique hm'
      exact hk
    · intro hm'
      cases hk.unique hm'
      exact hm
  · exact Or.inr (h.symm.unnameable_both hq hp hqlen hplen heq.symm hk hm hlt).symm

lemma leadAlike_of_chosen (heq : tokens isSlash p = tokens isSlash q)
    (h : ∀ m, Chosen mounts p m ↔ Chosen mounts q m) : LeadAlike mounts p q := by
  rintro v rfl _
  by_cases hm : ∃ m, Chosen v.mounts p m
  · obtain ⟨m, hm⟩ := hm
    have hk := (h m).mp hm
    rw [resolve_of_chosen hp hplen hm, resolve_of_chosen hq hqlen hk,
      segments_eq_of_chosen hp hq heq hm hk]
  · rw [resolve_of_unchosen hp fun m hc => hm ⟨m, hc⟩,
      resolve_of_unchosen hq fun m hc => hm ⟨m, (h m).mpr hc⟩]

lemma leadAlike_of_unnameable (hup : Unnameable mounts p) (huq : Unnameable mounts q) :
    LeadAlike mounts p q := by
  rintro v rfl _
  rw [resolve_of_unnameable hp hplen hup, resolve_of_unnameable hq hqlen huq]

/-- Two paths with the same components lead to the same node of every forest exactly when the same
mount has the longest mount path that either begins with, or when no node can be found through
either, for the length of a component's name. -/
theorem resolve_components_iff (hjoined : ∀ m ∈ mounts, Joined m.mountPath.val)
    (heq : tokens isSlash p = tokens isSlash q) :
    (∀ v : Vfs, v.mounts = mounts → Forest v → (v.vfsResolve p).1 = (v.vfsResolve q).1) ↔
      (∀ m, Chosen mounts p m ↔ Chosen mounts q m) ∨
        Unnameable mounts p ∧ Unnameable mounts q := by
  constructor
  · intro h
    have hsame : LeadAlike mounts p q := h
    by_cases hm : ∃ m, Chosen mounts p m
    · obtain ⟨m, hm⟩ := hm
      by_cases hk : ∃ k, Chosen mounts q k
      · obtain ⟨k, hk⟩ := hk
        exact hsame.chosen hp hq hplen hqlen hjoined heq hm hk
      · right
        exact ⟨hsame.unnameable hp hq hplen hqlen hm fun k hc => absurd ⟨k, hc⟩ hk,
          fun k hc => absurd ⟨k, hc⟩ hk⟩
    · by_cases hk : ∃ k, Chosen mounts q k
      · obtain ⟨k, hk⟩ := hk
        right
        exact ⟨fun m hc => absurd ⟨m, hc⟩ hm,
          hsame.symm.unnameable hq hp hqlen hplen hk fun m hc => absurd ⟨m, hc⟩ hm⟩
      · left
        intro m
        exact iff_of_false (fun hc => hm ⟨m, hc⟩) (fun hc => hk ⟨m, hc⟩)
  · rintro (hchosen | ⟨hup, huq⟩)
    · exact leadAlike_of_chosen hp hq hplen hqlen heq hchosen
    · exact leadAlike_of_unnameable hp hq hplen hqlen hup huq

omit hp hq hplen hqlen

theorem resolve_components_iff_root :
    (∀ v : Vfs, v.mounts = [rootMount 0 0] → Forest v →
        (v.vfsResolve (cstring "/a//b")).1 = (v.vfsResolve (cstring "//a/b/")).1) ↔
      (∀ m, Chosen [rootMount 0 0] (cstring "/a//b") m ↔ Chosen [rootMount 0 0] (cstring "//a/b/") m) ∨
        Unnameable [rootMount 0 0] (cstring "/a//b") ∧ Unnameable [rootMount 0 0] (cstring "//a/b/") :=
  resolve_components_iff (by decide) (by decide) (by decide) (by decide)
    (by simpa using ⟨[], by simp, Or.inl rfl⟩) (by decide)

/-- With a file system at `/` and one at `/foo`, the path `//foo` leads into the first one. -/
theorem resolve_sees_slashes :
    ¬ ∀ (v : Vfs) (p q : CString), (∀ m ∈ v.mounts, Joined m.mountPath.val) → Forest v →
      p.head? = some slash → q.head? = some slash → p.length < 256 → q.length < 256 →
      tokens isSlash p = tokens isSlash q → (v.vfsResolve p).1 = (v.vfsResolve q).1 := by
  intro h
  have hlinks : ∀ i, links mountedTwice i = [] := by
    intro i
    match i with
    | 0 => rfl
    | 1 => rfl
    | i + 2 => rfl
  have hjoined : ∀ m ∈ mountedTwice.mounts, Joined m.mountPath.val := by
    intro m hm
    rcases List.mem_pair.mp hm with rfl | rfl
    · exact ⟨[], by simp, Or.inl rfl⟩
    · exact ⟨tokens isSlash (cstring "/foo"), fun w hw => isWord_of_mem isSlash hw, Or.inl (by decide)⟩
  have hforest : Forest mountedTwice := by
    intro m _
    constructor
    · intro i i' n n' j hj
      rw [hlinks i] at hj
      cases hj
    · intro i n hi
      rw [hlinks i] at hi
      cases hi
  have heq := h mountedTwice (cstring "/foo") (cstring "//foo") hjoined hforest (by decide) (by decide)
    (by decide) (by decide) (by decide)
  have hnone : (mountedTwice.vfsResolve (cstring "//foo")).1 = none := by rfl
  rw [hnone] at heq
  cases heq

end Alike

end Veni.Filesystem.Vfs
