import Veni.Filesystem.VfsComponents
import Veni.Filesystem.VfsMounts
import Veni.Filesystem.VfsPrefixes

/-! The tokens that `vfs_create` passes on, which are components of the path or `NULL`. -/

namespace Veni.Filesystem.Vfs

open Veni.Libc Veni.Lib Veni.Lib.Tokens Veni.Lib.NameGraph Veni.Lib.Transition Logged

section Log

variable {v : Vfs} {mount : VfsMount} {current : ℕ} {rel : CString} {token : Option CString}

lemma createFileLog_eq (v : Vfs) (mount : VfsMount) (current : ℕ) (rel : CString) (token : Option CString) :
    ∃ es, createFileLog v mount current rel token =
        ⟨.findChild token :: es, some (createFile v mount current rel token)⟩ ∧
      ∀ e ∈ es, e = .name token := by
  simp only [createFileLog, createFile, tell_bind]
  by_cases hchild : (findChild v.nodes current (token.getD nullString)).isSome = true
  · rw [if_pos hchild, if_pos hchild]
    exact ⟨[], rfl, by simp⟩
  · rw [if_neg hchild, if_neg hchild]
    cases v.ramfs.ramfsCreate rel with
    | mk made r =>
      cases made with
      | none => exact ⟨[], rfl, by simp⟩
      | some fsFd =>
        simp only
        cases mallocNode { v with ramfs := r } with
        | mk node w =>
          cases node with
          | none => exact ⟨[], rfl, by simp⟩
          | some node =>
            refine ⟨[.name token], ?_, by simp⟩
            simp only
            cases allocFd _ with
            | none => rfl
            | some r => rfl

lemma vfsCreateLog_result (stack : ℕ → ℕ → UInt8) (v : Vfs) (path : CString) :
    (vfsCreateLog stack v path).result = v.vfsCreate path := by
  simp only [vfsCreateLog, vfsCreate]
  by_cases hnone : path.head? ≠ some slash ∨ v.mounts = []
  · rw [if_pos hnone, if_pos hnone]
    rfl
  · rw [if_neg hnone, if_neg hnone]
    cases v.findMount path with
    | none => rfl
    | some mount =>
      obtain ⟨_, _, hsame⟩ := createPrefixes_events continues_strtokNull stack v mount (relPath mount path)
      simp only
      rw [result_bind, hsame rfl]
      cases strtok .vfsCreate (strncpy 255 (relPath mount path)).val with
      | mk token next =>
        cases token with
        | none =>
          obtain ⟨es, heq, _⟩ :=
            createFileLog_eq (v.setCursor next) mount mount.node (relPath mount path) none
          simp only [Option.bind_some, heq]
        | some token =>
          simp only
          cases createLoop mount 256 (v.setCursor next) mount.node ⟨[], by decide⟩ token with
          | none => rfl
          | some r =>
            obtain ⟨stop, w⟩ := r
            cases stop with
            | none => rfl
            | some stop =>
              obtain ⟨current, t⟩ := stop
              obtain ⟨es, heq, _⟩ := createFileLog_eq w mount current (relPath mount path) (some t)
              simp only [Option.map_some, Option.bind_some, heq]

end Log

/-- The loop over the components `cs` and one more comes to the last one: every directory of `cs` is
there; or the last of them has to be made and can be, and the walk to it in the RAM file system ends at
its parent; or `cs` is a directory at the root and one in it, and both are made. -/
def ReachesLast (v : Vfs) (mount : VfsMount) (cs : List CString) : Prop :=
  walk (links v) mount.node cs ≠ none ∨
  (∃ ds d i, cs = ds ++ [d] ∧ walk (links v) mount.node ds = some i ∧ target (links v i) d = none ∧
    v.ramfs.heap.outcome v.ramfs.heap.calls ≠ none ∧
    walk (Ramfs.links v.ramfs.inodes) 0 ds.dropLast ≠ none) ∨
  ∃ d e, cs = [d, e] ∧ target (links v mount.node) d = none ∧
    v.ramfs.heap.outcome v.ramfs.heap.calls ≠ none ∧ v.ramfs.heap.outcome (v.ramfs.heap.calls + 1) ≠ none

/-- After the first missing directory was made, `strtok` is left in the middle of the path that
`ramfs_find_inode` had on its stack, as a directory of that path is not there. -/
def Astray (v : Vfs) (mount : VfsMount) (cs : List CString) : Prop :=
  ∃ ds d fs i, cs = ds ++ d :: fs ∧ walk (links v) mount.node ds = some i ∧ target (links v i) d = none ∧
    v.ramfs.heap.outcome v.ramfs.heap.calls ≠ none ∧ walk (Ramfs.links v.ramfs.inodes) 0 ds.dropLast = none

section Last

variable {v : Vfs} {mount : VfsMount} {ds fs : List CString} {d : CString} {i : ℕ}

variable (fs) in
lemma reachesLast_missing (hw : walk (links v) mount.node ds = some i) (habsent : target (links v i) d = none) :
    ReachesLast v mount (ds ++ d :: fs) ↔
      (fs = [] ∧ v.ramfs.heap.outcome v.ramfs.heap.calls ≠ none ∧
        walk (Ramfs.links v.ramfs.inodes) 0 ds.dropLast ≠ none) ∨
      ds = [] ∧ (∃ e, fs = [e]) ∧ v.ramfs.heap.outcome v.ramfs.heap.calls ≠ none ∧
        v.ramfs.heap.outcome (v.ramfs.heap.calls + 1) ≠ none := by
  constructor
  · rintro (hwalk | ⟨ds', d', i', hcs, hw', habsent', hout, hram⟩ | ⟨d', e, hcs, habsent', hout, hout'⟩)
    · exact absurd (walk_missing hw habsent fs) hwalk
    · obtain ⟨rfl, rfl, rfl⟩ := missing_unique hcs hw habsent hw' habsent'
      exact Or.inl ⟨rfl, hout, hram⟩
    · obtain ⟨rfl, rfl, rfl⟩ := missing_unique (show ds ++ d :: fs = [] ++ d' :: [e] from hcs) hw habsent
        (walk_nil (links v) mount.node) habsent'
      exact Or.inr ⟨rfl, ⟨e, rfl⟩, hout, hout'⟩
  · rintro (⟨rfl, hout, hram⟩ | ⟨rfl, ⟨e, rfl⟩, hout, hout'⟩)
    · exact Or.inr (Or.inl ⟨ds, d, i, rfl, hw, habsent, hout, hram⟩)
    · cases hw
      exact Or.inr (Or.inr ⟨d, e, rfl, habsent, hout, hout'⟩)

variable (fs) in
lemma astray_missing (hw : walk (links v) mount.node ds = some i) (habsent : target (links v i) d = none) :
    Astray v mount (ds ++ d :: fs) ↔ v.ramfs.heap.outcome v.ramfs.heap.calls ≠ none ∧
      walk (Ramfs.links v.ramfs.inodes) 0 ds.dropLast = none := by
  constructor
  · rintro ⟨ds', d', fs', i', hcs, hw', habsent', hout, hram⟩
    obtain ⟨rfl, _⟩ := missing_unique hcs hw habsent hw' habsent'
    exact ⟨hout, hram⟩
  · rintro ⟨hout, hram⟩
    exact ⟨ds, d, fs, i, rfl, hw, habsent, hout, hram⟩

lemma not_astray_of_walk {cs : List CString} (h : walk (links v) mount.node cs ≠ none) : ¬ Astray v mount cs := by
  rintro ⟨ds, d, fs, i, rfl, hw, habsent, _⟩
  exact h (walk_missing hw habsent fs)

structure EndsAt (v : Vfs) (mount : VfsMount) (cs : List CString) (t : CString)
    (r : Option (Option (ℕ × CString) × Vfs)) : Prop where
  last : ReachesLast v mount cs → ∃ node w, r = some (some (node, t), w)
  earlier : ¬ ReachesLast v mount cs → ∀ node u w, r = some (some (node, u), w) → u ∈ cs
  lost : r = none ↔ Astray v mount cs

lemma endsAt_last {cs : List CString} {t : CString} {node : ℕ} {w : Vfs} (h : ReachesLast v mount cs)
    (hl : ¬ Astray v mount cs) : EndsAt v mount cs t (some (some (node, t), w)) :=
  ⟨fun _ => ⟨node, w, rfl⟩, fun hnot => absurd h hnot, iff_of_false (Option.some_ne_none _) hl⟩

lemma endsAt_earlier {cs : List CString} {t u : CString} {node : ℕ} {w : Vfs}
    (h : ¬ ReachesLast v mount cs) (hl : ¬ Astray v mount cs) (hu : u ∈ cs) :
    EndsAt v mount cs t (some (some (node, u), w)) := by
  refine ⟨fun hreach => absurd hreach h, fun _ node' u' w' heq => ?_, iff_of_false (Option.some_ne_none _) hl⟩
  cases heq
  exact hu

lemma endsAt_failed {cs : List CString} {t : CString} {w : Vfs} (h : ¬ ReachesLast v mount cs)
    (hl : ¬ Astray v mount cs) : EndsAt v mount cs t (some (none, w)) :=
  ⟨fun hreach => absurd hreach h, fun _ node' u' w' heq => (by cases heq),
    iff_of_false (Option.some_ne_none _) hl⟩

lemma endsAt_fault {cs : List CString} {t : CString} (h : ¬ ReachesLast v mount cs)
    (hl : Astray v mount cs) : EndsAt v mount cs t none :=
  ⟨fun hreach => absurd hreach h, fun _ node' u' w' heq => (by cases heq), iff_of_true rfl hl⟩

lemma missing_split {cs es : List CString} {t e : CString} (hts : cs ++ [t] = ds ++ d :: e :: es) :
    cs = ds ++ d :: (e :: es).dropLast ∧ e :: es = (e :: es).dropLast ++ [t] := by
  have hlast := List.dropLast_append_getLast (List.cons_ne_nil e es)
  rw [← hlast, ← List.cons_append, ← List.append_assoc] at hts
  obtain ⟨hcs, ht⟩ := List.append_inj' hts rfl
  rw [List.singleton_inj] at ht
  exact ⟨hcs, by rw [ht, hlast]⟩

variable (hs : Ramfs.Sound v.ramfs.inodes)
include hs

section Made

variable {cs es : List CString} {t e : CString} {path : CBuffer 256} {rest : CString} {n child : ℕ} {w : Vfs}
  (hwords : ∀ c ∈ cs ++ [t], IsWord isSlash c) (hlen : (join slash (cs ++ [t])).length ≤ 255)
  (hts : cs ++ [t] = ds ++ d :: e :: es) (hw : walk (links v) mount.node ds = some i)
  (habsent : target (links v i) d = none) (hout : v.ramfs.heap.outcome v.ramfs.heap.calls ≠ none)
  (hpath : path.val = join slash ds)
  (hdir : createDir (v.setCursor (some ⟨.vfsCreate, rest⟩)) mount i path d = (some child, w))
include hwords hlen hts hw habsent hout hpath hdir

lemma createLoop_below_ends (hds : ds ≠ []) :
    EndsAt v mount cs t (createLoop mount (n + 1) w child (appendPath path d) e) := by
  obtain ⟨hcs, hlast⟩ := missing_split hts
  have hreach := reachesLast_missing (e :: es).dropLast hw habsent
  have hstray := astray_missing (e :: es).dropLast hw habsent
  rw [← hcs] at hreach hstray
  have hwds : ∀ c ∈ ds, IsWord isSlash c := fun c hc => hwords c (by rw [hts]; simp [hc])
  have hwd : IsWord isSlash d := hwords d (by rw [hts]; simp)
  have hlen' : (join slash (ds ++ [d])).length ≤ 255 :=
    (length_join_le_append slash (ds ++ [d]) (e :: es)).trans (by simpa [hts] using hlen)
  rcases createLoop_dead (n := n) (q := appendPath path d) (u := e) hs hds hwds hwd hlen' hpath hdir with
    ⟨hlost, hloop⟩ | ⟨hfound, next', hloop⟩
  · rw [hloop]
    apply endsAt_fault
    · rw [hreach]
      rintro (⟨_, _, hram⟩ | ⟨hnil, _⟩)
      · exact hram hlost
      · exact hds hnil
    · exact hstray.mpr ⟨hout, hlost⟩
  · rw [hloop]
    have hl : ¬ Astray v mount cs := fun h => hfound (hstray.mp h).2
    cases es with
    | nil =>
      cases hlast
      exact endsAt_last (hreach.mpr (Or.inl ⟨rfl, hout, hfound⟩)) hl
    | cons x us =>
      rw [List.dropLast_cons_cons] at hreach hcs
      apply endsAt_earlier
      · rw [hreach]
        rintro (⟨hnil, _⟩ | ⟨hnil, _⟩)
        · cases hnil
        · exact hds hnil
      · exact hl
      · rw [hcs]
        simp

lemma createLoop_root_ends (hi : i < v.ramfs.heap.calls) (hds : ds = []) (hrest : tokens isSlash rest = es)
    (hn : es.length ≤ n) : EndsAt v mount cs t (createLoop mount (n + 1) w child (appendPath path d) e) := by
  obtain ⟨hcs, hlast⟩ := missing_split hts
  have hreach := reachesLast_missing (e :: es).dropLast hw habsent
  have hstray := astray_missing (e :: es).dropLast hw habsent
  rw [← hcs] at hreach hstray
  subst hds
  have hl : ¬ Astray v mount cs := by
    rw [hstray]
    rintro ⟨_, hram⟩
    cases hram
  have hwd : IsWord isSlash d := hwords d (by rw [hts]; simp)
  have hwe : IsWord isSlash e := hwords e (by rw [hts]; simp)
  have hlen₂ : (join slash ([d] ++ [e])).length ≤ 255 :=
    (length_join_le_append slash ([d] ++ [e]) es).trans (by simpa [hts] using hlen)
  have hlen₁ : (join slash ([] ++ [d])).length ≤ 255 := (length_join_le_append slash ([] ++ [d]) [e]).trans hlen₂
  have hcursor : w.ramfs.strtokNext = some ⟨.vfsCreate, rest⟩ :=
    createDir_root_cursor (v := v.setCursor (some ⟨.vfsCreate, rest⟩)) hs hwd hlen₁ hpath hdir
  cases es with
  | nil =>
    cases hlast
    have hnext : strtokNull .vfsCreate (some ⟨.vfsCreate, rest⟩) = some (none, some ⟨.vfsCreate, []⟩) := by
      rw [strtokNull_own, strtok, tokenStep_of_nil hrest]
    rw [createLoop_end hnext hcursor]
    exact endsAt_last (hreach.mpr (Or.inl ⟨rfl, hout, by simp⟩)) hl
  | cons x us =>
    cases hw
    obtain ⟨_, next, next', hloop⟩ := createLoop_second hs hwd hwe hlen₂ (n := n) hi hpath hrest
      (Nat.lt_of_lt_of_le (Nat.succ_pos _) hn) hdir hcursor
    rw [hloop]
    cases hdir' : createDir (w.setCursor next) mount child (appendPath path d) e with
    | mk made w' =>
      have hmade : made = none ↔ v.ramfs.heap.outcome (v.ramfs.heap.calls + 1) = none :=
        createDir_outcome_second (v := v.setCursor (some ⟨.vfsCreate, rest⟩)) hs hi hdir hdir'
      cases made with
      | none =>
        refine endsAt_failed ?_ hl
        rw [hreach]
        rintro (⟨hnil, _⟩ | ⟨_, _, _, hout'⟩)
        · cases hnil
        · exact hout' (hmade.mp rfl)
      | some child' =>
        have hout' : v.ramfs.heap.outcome (v.ramfs.heap.calls + 1) ≠ none :=
          fun hnone => by cases hmade.mpr hnone
        cases us with
        | nil =>
          cases hlast
          exact endsAt_last (hreach.mpr (Or.inr ⟨rfl, ⟨e, rfl⟩, hout, hout'⟩)) hl
        | cons y us =>
          apply endsAt_earlier
          · rw [hreach]
            rintro (⟨hnil, _⟩ | ⟨_, ⟨c, hc⟩, _⟩)
            · cases hnil
            · simp at hc
          · exact hl
          · rw [hcs]
            simp

end Made

variable (hbelow : ∀ ns i, walk (links v) mount.node ns = some i → i < v.ramfs.heap.calls)
include hbelow

lemma createLoop_missing_ends {cs es : List CString} {t e : CString} (hwords : ∀ c ∈ cs ++ [t], IsWord isSlash c)
    (hlen : (join slash (cs ++ [t])).length ≤ 255) (hts : cs ++ [t] = ds ++ d :: e :: es) {k : ℕ}
    {q : CBuffer 256} {rest : CString} (hw : walk (links v) mount.node ds = some i)
    (habsent : target (links v i) d = none) (hq : q.val = join slash ds) (hrest : tokens isSlash rest = es)
    (hk : es.length < k) :
    EndsAt v mount cs t
      (match createDir (v.setCursor (some ⟨.vfsCreate, rest⟩)) mount i q d with
        | (none, w) => some (none, w)
        | (some child, w) => createLoop mount k w child (appendPath q d) e) := by
  have hi := hbelow ds i hw
  obtain ⟨k, rfl⟩ := Nat.exists_eq_succ_of_ne_zero (Nat.ne_of_gt (Nat.zero_lt_of_lt hk))
  cases hdir : createDir (v.setCursor (some ⟨.vfsCreate, rest⟩)) mount i q d with
  | mk made w =>
    obtain ⟨hmade, _⟩ := createDir_outcome (v := v.setCursor (some ⟨.vfsCreate, rest⟩)) hs hi hdir
    have hmade : made = none ↔ v.ramfs.heap.outcome v.ramfs.heap.calls = none := hmade
    cases made with
    | none =>
      obtain ⟨hcs, _⟩ := missing_split hts
      rw [hcs]
      apply endsAt_failed
      · rw [reachesLast_missing (e :: es).dropLast hw habsent]
        rintro (⟨_, hout, _⟩ | ⟨_, _, hout, _⟩)
        · exact hout (hmade.mp rfl)
        · exact hout (hmade.mp rfl)
      · rw [astray_missing (e :: es).dropLast hw habsent]
        rintro ⟨hout, _⟩
        exact hout (hmade.mp rfl)
    | some child =>
      have hout : v.ramfs.heap.outcome v.ramfs.heap.calls ≠ none := fun hnone => by cases hmade.mpr hnone
      by_cases hds : ds = []
      · exact createLoop_root_ends hs hwords hlen hts hw habsent hout hq hdir hi hds hrest (Nat.le_of_lt_succ hk)
      · exact createLoop_below_ends hs hwords hlen hts hw habsent hout hq hdir hds

lemma createLoop_endsAt {cs us : List CString} {t t₀ : CString} {rel rest : CString}
    (hcs : Ramfs.components rel = cs ++ [t]) (hus : Ramfs.components rel = t₀ :: us)
    (hrest : tokens isSlash rest = us) :
    EndsAt v mount cs t
      (createLoop mount 256 (v.setCursor (some ⟨.vfsCreate, rest⟩)) mount.node ⟨[], by decide⟩ t₀) := by
  have hwords : ∀ c ∈ Ramfs.components rel, IsWord isSlash c := fun _ => components_word
  have hlen := components_length rel
  have hcount : (Ramfs.components rel).length ≤ 255 :=
    (length_tokens_le isSlash (rel.take 255)).trans (List.length_take_le 255 rel)
  have hn : us.length < 256 := by
    rw [hus, List.length_cons] at hcount
    omega
  rw [hcs] at hwords hlen hus
  have hnil : (⟨[], by decide⟩ : CBuffer 256).val = join slash [] := rfl
  rcases createLoop_reach hwords hlen (show cs ++ [t] = [] ++ t₀ :: us from hus)
      (walk_nil (links v) mount.node) hnil hrest hn with
    ⟨ds, d, i, next, hds, hi, hloop⟩ | ⟨ds, d, e, es, i, k, q, rest', hds, hi, habsent, hq, hes, hk, hloop⟩
  · obtain ⟨rfl, ht⟩ := List.append_inj' hds rfl
    rw [List.singleton_inj] at ht
    subst ht
    rw [hloop]
    have hwalk : walk (links v) mount.node cs ≠ none := by
      rw [hi]
      exact Option.some_ne_none _
    exact endsAt_last (Or.inl hwalk) (not_astray_of_walk hwalk)
  · rw [hloop]
    exact createLoop_missing_ends hs hbelow hwords hlen hds hi habsent hq hes hk

end Last

def UsesComponent (path : CString) : Event → Prop
  | .findChild token | .name token => ∃ c ∈ tokens isSlash path, token = some c
  | .guard _ | .mkdir _ _ _ => True

def AtMountPoint (v : Vfs) (path : CString) : Prop := ∃ m, v.findMount path = some m ∧ segments m path = []

/-- All tokens of the call are components of the path, `strtok` reads no other string than it, and at a
mount point the call returns -1 and changes nothing except for where `strtok` points. -/
structure TokensSafe (stack : ℕ → ℕ → UInt8) (v : Vfs) (path : CString) : Prop where
  used : ∀ e ∈ (vfsCreateLog stack v path).log, UsesComponent path e
  defined : (vfsCreateLog stack v path).result ≠ none
  refused : AtMountPoint v path → ∃ next, v.vfsCreate path = some (none, v.setCursor next)

/-- The 255 characters of the relative path that are copied hold a component, `strtok` does not go astray
before the last of them, and if the loop comes to the last one, the cut has not shortened it. -/
def Usable (v : Vfs) (path : CString) : Prop :=
  ∀ m, v.findMount path = some m → ∃ cs t, Ramfs.components (relPath m path) = cs ++ [t] ∧
    ¬ Astray v m cs ∧ (ReachesLast v m cs → t ∈ tokens isSlash path)

section Tokens

variable {v : Vfs} {m : VfsMount} {path rel : CString} {cs : List CString} {t : CString}

lemma components_of_segments (h : segments m path = []) : Ramfs.components (relPath m path) = [] := by
  rw [← tokens_relPath, tokens_eq_nil] at h
  exact (tokens_eq_nil isSlash).mpr fun c hc => h c (List.mem_of_mem_take hc)

lemma mem_tokens_of_components (habs : path.head? = some slash) (hm : v.findMount path = some m)
    (hcs : Ramfs.components (relPath m path) = cs ++ [t]) {c : CString} (hc : c ∈ cs) :
    c ∈ tokens isSlash path := by
  have hpre := dropLast_tokens_prefix isSlash ((relPath m path).take 255) ((relPath m path).drop 255)
  rw [List.take_append_drop, tokens_relPath, ← Ramfs.components, hcs, List.dropLast_concat] at hpre
  rw [((findMount_eq_some habs).mp hm).matches.tokens_eq habs]
  exact List.mem_append_right _ (hpre.subset hc)

lemma createPrefixes_root (stack : ℕ → ℕ → UInt8) (v : Vfs) (m : VfsMount)
    (hnil : Ramfs.components rel = []) :
    ∃ next, (createPrefixes (strtokNull .vfsCreate) stack v m rel).result =
      some (some (m.node, none), v.setCursor next) := by
  obtain ⟨_, _, hsame⟩ := createPrefixes_events continues_strtokNull stack v m rel
  simp only [hsame rfl, strtok, tokenStep_of_nil (show tokens isSlash (strncpy 255 rel).val = [] from hnil)]
  exact ⟨_, rfl⟩

lemma createPrefixes_ends (stack : ℕ → ℕ → UInt8) (hs : Ramfs.Sound v.ramfs.inodes)
    (hbelow : ∀ ns i, walk (links v) m.node ns = some i → i < v.ramfs.heap.calls)
    (hcs : Ramfs.components rel = cs ++ [t]) :
    ∃ r, EndsAt v m cs t r ∧ (createPrefixes (strtokNull .vfsCreate) stack v m rel).result =
      r.map fun r => (r.1.map fun stop => (stop.1, some stop.2), r.2) := by
  obtain ⟨_, _, hsame⟩ := createPrefixes_events continues_strtokNull stack v m rel
  obtain ⟨t₀, us, hus⟩ := List.exists_cons_of_ne_nil (l := Ramfs.components rel) (by simp [hcs])
  obtain ⟨rest, hstep, hrest⟩ := tokenStep_of_cons (show tokens isSlash (strncpy 255 rel).val = t₀ :: us from hus)
  refine ⟨_, createLoop_endsAt hs hbelow hcs hus hrest, ?_⟩
  simp only [hsame rfl, strtok, hstep]

variable (habs : path.head? = some slash) (hm : v.findMount path = some m)
include habs hm

lemma vfsCreateLog_of_findMount (stack : ℕ → ℕ → UInt8) :
    vfsCreateLog stack v path =
      (createPrefixes (strtokNull .vfsCreate) stack v m (relPath m path) >>= fun r =>
        match r.1 with
        | none => pure (none, r.2)
        | some stop => createFileLog r.2 m stop.1 (relPath m path) stop.2) := by
  have hne : ¬ (path.head? ≠ some slash ∨ v.mounts = []) := by
    rintro (hne | hnil)
    · exact hne habs
    · have hmem := findMount_mem hm
      rw [hnil] at hmem
      cases hmem
  simp only [vfsCreateLog, if_neg hne, hm]
  congr 1
  funext r
  obtain ⟨stop, w⟩ := r
  cases stop with
  | none => rfl
  | some stop => rfl

lemma mem_vfsCreateLog (stack : ℕ → ℕ → UInt8) {e : Event} :
    e ∈ (vfsCreateLog stack v path).log ↔
      e ∈ (createPrefixes (strtokNull .vfsCreate) stack v m (relPath m path)).log ∨
        ∃ current token w, (createPrefixes (strtokNull .vfsCreate) stack v m (relPath m path)).result =
            some (some (current, token), w) ∧
          e ∈ (createFileLog w m current (relPath m path) token).log := by
  rw [vfsCreateLog_of_findMount habs hm stack, mem_log_bind]
  apply or_congr_right
  constructor
  · rintro ⟨⟨stop, w⟩, hr, he⟩
    cases stop with
    | none => cases he
    | some stop => exact ⟨stop.1, stop.2, w, hr, he⟩
  · rintro ⟨current, token, w, hr, he⟩
    exact ⟨_, hr, he⟩

lemma vfsCreateLog_defined (stack : ℕ → ℕ → UInt8)
    (hdef : (createPrefixes (strtokNull .vfsCreate) stack v m (relPath m path)).result ≠ none) :
    (vfsCreateLog stack v path).result ≠ none := by
  rw [vfsCreateLog_of_findMount habs hm stack, result_bind]
  cases hr : (createPrefixes (strtokNull .vfsCreate) stack v m (relPath m path)).result with
  | none => exact absurd hr hdef
  | some r =>
    obtain ⟨stop, w⟩ := r
    cases stop with
    | none => exact Option.some_ne_none _
    | some stop =>
      obtain ⟨current, token⟩ := stop
      obtain ⟨es, heq, _⟩ := createFileLog_eq w m current (relPath m path) token
      simp only [Option.bind_some, heq]
      exact Option.some_ne_none _

variable (hs : Ramfs.Sound v.ramfs.inodes)
  (hbelow : ∀ ns i, walk (links v) m.node ns = some i → i < v.ramfs.heap.calls)
include hs hbelow

lemma TokensSafe.usable {stack : ℕ → ℕ → UInt8} (h : TokensSafe stack v path) :
    ∃ cs t, Ramfs.components (relPath m path) = cs ++ [t] ∧ ¬ Astray v m cs ∧
      (ReachesLast v m cs → t ∈ tokens isSlash path) := by
  have htoken : ∀ {current token w}, (createPrefixes (strtokNull .vfsCreate) stack v m (relPath m path)).result =
      some (some (current, token), w) → ∃ c ∈ tokens isSlash path, token = some c := by
    intro current token w hr
    obtain ⟨es, heq, _⟩ := createFileLog_eq w m current (relPath m path) token
    apply h.used (.findChild token)
    rw [mem_vfsCreateLog habs hm stack]
    exact Or.inr ⟨current, token, w, hr, by rw [heq]; exact List.mem_cons_self⟩
  rcases List.eq_nil_or_concat (Ramfs.components (relPath m path)) with hnil | ⟨cs, t, hcs⟩
  · obtain ⟨next, hr⟩ := createPrefixes_root stack v m hnil
    obtain ⟨c, _, hc⟩ := htoken hr
    cases hc
  · rw [List.concat_eq_append] at hcs
    obtain ⟨r, hends, hr⟩ := createPrefixes_ends stack hs hbelow hcs
    refine ⟨cs, t, hcs, fun hstray => ?_, fun hreach => ?_⟩
    · rw [hends.lost.mpr hstray, Option.map_none] at hr
      apply h.defined
      rw [vfsCreateLog_of_findMount habs hm stack, result_bind, hr]
      rfl
    · obtain ⟨node, w, rfl⟩ := hends.last hreach
      obtain ⟨c, hc, ht⟩ := htoken hr
      cases ht
      exact hc

omit hs hbelow

lemma EndsAt.token_mem {stack : ℕ → ℕ → UInt8} (hcs : Ramfs.components (relPath m path) = cs ++ [t])
    (ht : ReachesLast v m cs → t ∈ tokens isSlash path) {r : Option (Option (ℕ × CString) × Vfs)}
    (hends : EndsAt v m cs t r)
    (hr : (createPrefixes (strtokNull .vfsCreate) stack v m (relPath m path)).result =
      r.map fun r => (r.1.map fun stop => (stop.1, some stop.2), r.2)) (current : ℕ) (token : Option CString)
    (w : Vfs) (hstop : (createPrefixes (strtokNull .vfsCreate) stack v m (relPath m path)).result =
      some (some (current, token), w)) : ∃ c ∈ tokens isSlash path, token = some c := by
  rw [hr] at hstop
  obtain ⟨⟨stop, w'⟩, hstop', hpair⟩ := Option.map_eq_some_iff.mp hstop
  obtain ⟨hfst, rfl⟩ := Prod.mk.inj hpair
  have hfst : stop.map (fun stop => (stop.1, some stop.2)) = some (current, token) := hfst
  obtain ⟨⟨node, u⟩, rfl, heq⟩ := Option.map_eq_some_iff.mp hfst
  cases heq
  refine ⟨u, ?_, rfl⟩
  by_cases hreach : ReachesLast v m cs
  · obtain ⟨node', w'', hlast⟩ := hends.last hreach
    rw [hlast] at hstop'
    cases hstop'
    exact ht hreach
  · exact mem_tokens_of_components habs hm hcs (hends.earlier hreach node u w' hstop')

lemma usesComponent_of_prefix (hcs : Ramfs.components (relPath m path) = cs ++ [t]) {e : Event}
    (he : PrefixEvent (cs ++ [t]) e) : UsesComponent path e := by
  cases e with
  | findChild token =>
    obtain ⟨c, hc, rfl⟩ := he
    rw [List.dropLast_concat] at hc
    exact ⟨c, mem_tokens_of_components habs hm hcs hc, rfl⟩
  | name token =>
    obtain ⟨c, hc, rfl⟩ := he
    rw [List.dropLast_concat] at hc
    exact ⟨c, mem_tokens_of_components habs hm hcs hc, rfl⟩
  | guard holds => trivial
  | mkdir k currentPath mkdirPath => trivial

include hs hbelow

lemma tokensSafe_of_usable (stack : ℕ → ℕ → UInt8) (hcs : Ramfs.components (relPath m path) = cs ++ [t])
    (hstray : ¬ Astray v m cs) (ht : ReachesLast v m cs → t ∈ tokens isSlash path) :
    TokensSafe stack v path := by
  obtain ⟨r, hends, hr⟩ := createPrefixes_ends stack hs hbelow hcs
  have htoken := hends.token_mem habs hm hcs ht hr
  obtain ⟨hlog, _, _⟩ := createPrefixes_events continues_strtokNull stack v m (relPath m path)
  rw [hcs] at hlog
  refine ⟨fun e he => ?_, ?_, ?_⟩
  · rcases (mem_vfsCreateLog habs hm stack).mp he with he | ⟨current, token, w, hstop, he⟩
    · exact usesComponent_of_prefix habs hm hcs (hlog e he)
    · obtain ⟨es, heq, hes⟩ := createFileLog_eq w m current (relPath m path) token
      rw [heq] at he
      rcases List.mem_cons.mp he with rfl | he
      · exact htoken current token w hstop
      · rw [hes e he]
        exact htoken current token w hstop
  · apply vfsCreateLog_defined habs hm stack
    rw [hr]
    intro hnone
    exact hstray (hends.lost.mp (Option.map_eq_none_iff.mp hnone))
  · rintro ⟨k, hk, hnil⟩
    rw [hm] at hk
    cases hk
    rw [components_of_segments hnil] at hcs
    simp at hcs

end Tokens

/-- In every reachable state, `vfs_create` uses components of the path as tokens, and refuses a path that
ends at a mount point, exactly when the path after the mount point has a component in its first 255
characters, all of it in them unless the loop stops before it, and `strtok` does not go astray. -/
theorem create_tokens_iff (outcome : ℕ → Option (ℕ → UInt8)) {ops : List MountOp} {v : Vfs}
    (hrun : Run MountStep (started outcome) ops v) (stack : ℕ → ℕ → UInt8) {path : CString}
    (habs : path.head? = some slash) : TokensSafe stack v path ↔ Usable v path := by
  have hlive : NodesLive v :=
    hrun.invariant (I := NodesLive) (fun _ _ _ h hs => h.mountStep_nodes hs) (started_live outcome).1
  have hbelow : ∀ m ∈ v.mounts, ∀ ns i, walk (links v) m.node ns = some i → i < v.ramfs.heap.calls :=
    fun m hm ns i hw => (hlive.walk (hlive.mount m hm) hw).lt_calls hlive.storage
  constructor
  · intro h m hm
    exact h.usable habs hm hlive.sound (hbelow m (findMount_mem hm))
  · intro h
    cases hm : v.findMount path with
    | none =>
      have hnone : vfsCreateLog stack v path = ⟨[], some (none, v)⟩ := by
        simp only [vfsCreateLog, hm]
        split <;> rfl
      refine ⟨?_, ?_, ?_⟩
      · rw [hnone]
        simp
      · rw [hnone]
        exact Option.some_ne_none _
      · rintro ⟨m, hm', _⟩
        rw [hm] at hm'
        cases hm'
    | some m =>
      obtain ⟨cs, t, hcs, hstray, ht⟩ := h m hm
      exact tokensSafe_of_usable habs hm hlive.sound (hbelow m (findMount_mem hm)) stack hcs hstray ht

theorem create_tokens_iff_file :
    TokensSafe (fun _ _ => 0) ((started fun _ => some fun _ => 0).vfsMount 0 (cstring "/")).2 (cstring "/a") := by
  have hrun : Run MountStep (started fun _ => some fun _ => 0) [.mount 0 (cstring "/")]
      ((started fun _ => some fun _ => 0).vfsMount 0 (cstring "/")).2 := .single rfl
  refine (create_tokens_iff (fun _ => some fun _ => 0) hrun (fun _ _ => 0) (by decide)).mpr fun m hm => ?_
  have hmount : ((started fun _ => some fun _ => 0).vfsMount 0 (cstring "/")).2.findMount (cstring "/a") =
      some (rootMount 0 0) := by rfl
  rw [hmount] at hm
  cases hm
  exact ⟨[], cstring "a", by decide, not_astray_of_walk (by simp), fun _ => by decide⟩

/-- With a file system mounted at `/`, `vfs_create("/")` passes `NULL` to `find_child`. -/
theorem create_passes_null :
    ¬ ∀ (outcome : ℕ → Option (ℕ → UInt8)) (ops : List MountOp) (v : Vfs) (stack : ℕ → ℕ → UInt8)
      (path : CString), Run MountStep (started outcome) ops v → v.mounts ≠ [] → path.head? = some slash →
      TokensSafe stack v path := by
  intro h
  have hsafe := h (fun _ => some fun _ => 0) [.mount 0 (cstring "/")] _ (fun _ _ => 0) (cstring "/")
    (.single rfl) (by decide) (by decide)
  obtain ⟨c, _, hc⟩ := hsafe.used (.findChild none) (List.Mem.head _)
  cases hc

end Veni.Filesystem.Vfs
