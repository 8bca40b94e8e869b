import Veni.Filesystem.VfsTree

/-! The loop of `vfs_create` and the pointer of `strtok` that it shares with `ramfs_mkdir`. -/

namespace Veni.Filesystem.Vfs

open Veni.Libc Veni.Lib.Tokens Veni.Lib.NameGraph

section Cursor

lemma findLoop_rest {inodes : ℕ → RamfsInode} (h : Ramfs.Sound inodes) {n current : ℕ} {rest : CString}
    (hc : Ramfs.Live inodes current) (hn : (tokens isSlash rest).length < n) :
    (tokens isSlash (Ramfs.findLoop inodes n current rest).2).length ≤
        (tokens isSlash rest).length - 1 ∧
      (tokens isSlash (Ramfs.findLoop inodes n current rest).2 = [] ↔
        walk (Ramfs.links inodes) current (tokens isSlash rest).dropLast ≠ none) := by
  induction n generalizing current rest with
  | zero => omega
  | succ n ih =>
    simp only [Ramfs.findLoop]
    cases ht : tokens isSlash rest with
    | nil => simp [tokenStep_of_nil ht]
    | cons t ts =>
      obtain ⟨rest', hs, hrest⟩ := tokenStep_of_cons ht
      rw [ht, List.length_cons] at hn
      rw [hs]
      simp only [List.length_cons, Nat.add_sub_cancel]
      have hmiss : target (Ramfs.links inodes current) t = none →
          (tokens isSlash rest').length ≤ ts.length ∧
            (tokens isSlash rest' = [] ↔ walk (Ramfs.links inodes) current (t :: ts).dropLast ≠ none) := by
        intro hnone
        rw [hrest]
        refine ⟨le_rfl, ?_⟩
        cases ts with
        | nil => simp
        | cons u us => simp [walk_cons, hnone]
      by_cases hdir : (inodes current).type = .dir
      · have hused : Ramfs.UsedDir inodes current := ⟨hc.1, hc.2, hdir⟩
        have htarget := Ramfs.target_links hused t
        rw [if_pos hdir]
        cases hf : Ramfs.findEntry (inodes current).entries t with
        | none => exact hmiss (by rw [htarget, hf]; rfl)
        | some e =>
          have hlive := h.entry current hused e (List.mem_of_find?_eq_some hf)
          obtain ⟨hlen, hiff⟩ := ih hlive.2 (show (tokens isSlash rest').length < n by rw [hrest]; omega)
          rw [hrest] at hlen hiff
          simp only
          refine ⟨by omega, hiff.trans ?_⟩
          cases ts with
          | nil => simp
          | cons u us => rw [List.dropLast_cons_cons, walk_cons, htarget, hf, Option.map_some, Option.bind_some]
      · rw [if_neg hdir]
        have hnot : ¬ Ramfs.UsedDir inodes current := fun hu => hdir hu.2.2
        exact hmiss (by rw [Ramfs.links, if_neg hnot]; rfl)

variable {r : Ramfs} {cs : List CString} {t : CString}

lemma mkdir_cursor (r : Ramfs) (path : CString) :
    (r.ramfsMkdir path).2.strtokNext =
      (r.ramfsFindInode (Ramfs.splitPath path).1).2.strtokNext := by
  simp only [Ramfs.ramfsMkdir]
  split
  · next h => rw [h]
  · next h =>
    rw [h]
    split
    · rfl
    · split
      · rfl
      · cases ha : Ramfs.allocInode _ with
        | none => rfl
        | some a =>
          obtain ⟨idx, r'⟩ := a
          obtain ⟨_, _, hr⟩ := Option.map_eq_some_iff.mp ha
          cases hr
          simp only [Ramfs.addEntry]
          split
          · next hadd =>
            split at hadd
            · rfl
            · cases hadd
          · next hadd =>
            split at hadd
            · cases hadd
            · cases hadd
              rfl

lemma mkdir_join_cursor (hs : Ramfs.Sound r.inodes) (hw : ∀ c ∈ cs, IsWord isSlash c)
    (ht : IsWord isSlash t) (hlen : (join slash (cs ++ [t])).length ≤ 255) :
    (cs = [] → (r.ramfsMkdir (join slash (cs ++ [t]))).2.strtokNext = r.strtokNext) ∧
      (cs ≠ [] → ∃ rest, (r.ramfsMkdir (join slash (cs ++ [t]))).2.strtokNext =
          some ⟨.ramfsFindInode, rest⟩ ∧ (tokens isSlash rest).length ≤ cs.length - 1 ∧
        (tokens isSlash rest = [] ↔ walk (Ramfs.links r.inodes) 0 cs.dropLast ≠ none)) := by
  have hle := (length_join_le_append slash cs [t]).trans hlen
  have hcs := Ramfs.components_join hw hle
  rw [mkdir_cursor, Ramfs.splitPath_join ht hlen]
  constructor
  · rintro rfl
    rfl
  · intro hne
    have htok : tokens isSlash (strncpy 255 (join slash cs)).val = cs := hcs
    unfold Ramfs.ramfsFindInode
    rw [if_neg fun hnil => hne ((join_eq_nil isSlash hw).mp hnil)]
    obtain ⟨hrest, hiff⟩ := findLoop_rest hs hs.live_root
      (Nat.lt_succ_of_le (length_tokens_le isSlash (strncpy 255 (join slash cs)).val))
    rw [htok] at hrest hiff
    exact ⟨_, rfl, hrest, hiff⟩

end Cursor

lemma appendPath_join {path : CBuffer 256} {cs : List CString} {t : CString}
    (hpath : path.val = join slash cs) (hw : ∀ c ∈ cs, IsWord isSlash c)
    (hlen : (join slash (cs ++ [t])).length ≤ 255) :
    (appendPath path t).val = join slash (cs ++ [t]) := by
  by_cases hcs : cs = []
  · subst hcs
    rw [join_nil] at hpath
    simp only [List.nil_append, join_singleton] at hlen ⊢
    simp only [appendPath, hpath, ne_eq, not_true_eq_false, false_and, dif_neg, not_false_eq_true,
      List.length_nil, Nat.zero_add]
    rw [dif_pos (by omega)]
    simp
  · have hne : path.val ≠ [] := by
      rw [hpath]
      exact fun hnil => hcs ((join_eq_nil isSlash hw).mp hnil)
    rw [join_concat slash hcs, List.length_append, List.length_cons, ← hpath] at hlen
    have hroom : path.val ≠ [] ∧ path.val.length + 1 < 256 := ⟨hne, by omega⟩
    simp only [appendPath, dif_pos hroom, List.length_append, List.length_cons, List.length_nil]
    rw [dif_pos (by omega), join_concat slash hcs, ← hpath]
    simp

lemma createDir_cases {v : Vfs} (hs : Ramfs.Sound v.ramfs.inodes) (mount : VfsMount) {current : ℕ}
    (hc : current < v.ramfs.heap.calls) (path : CBuffer 256) (t : CString) :
    (v.ramfs.heap.outcome v.ramfs.heap.calls = none ∧
        createDir v mount current path t = (none,
          { v with ramfs := (v.ramfs.ramfsMkdir (appendPath path t).val).2 }.failedMalloc)) ∨
      v.ramfs.heap.outcome v.ramfs.heap.calls ≠ none ∧
        ∃ fsFd w, createDir v mount current path t = (some v.ramfs.heap.calls, w) ∧
          NewNode { v with ramfs := (v.ramfs.ramfsMkdir (appendPath path t).val).2 } w current
            ⟨strncpy 31 t, .dir, mount.fs, fsFd, some current, []⟩ := by
  have hheap := (Ramfs.mkdir_cases hs (appendPath path t).val).1
  have hcases := mallocNode_cases { v with ramfs := (v.ramfs.ramfsMkdir (appendPath path t).val).2 }
  simp only [hheap] at hcases
  unfold createDir
  simp only
  rcases hcases with ⟨hout, hm⟩ | ⟨fsFd, w, hout, hm, hnew⟩
  · rw [hm]
    exact .inl ⟨hout, rfl⟩
  · rw [hm]
    exact .inr ⟨hout, fsFd, _, rfl, hnew _ current hc⟩

inductive LoopEnds (mount : VfsMount) (v : Vfs) (ts : List CString) :
    Option (Option (ℕ × CString) × Vfs) → Prop
  | found {cs : List CString} {t : CString} {node : ℕ} (next : Option Cursor) (hts : ts = cs ++ [t])
      (hw : walk (links v) mount.node cs = some node) :
      LoopEnds mount v ts (some (some (node, t), v.setCursor next))
  | failed {cs us : List CString} {t u : CString} {node : ℕ} {next : Option Cursor} {path : CBuffer 256}
      {w : Vfs} (hts : ts = cs ++ t :: u :: us) (hw : walk (links v) mount.node cs = some node)
      (habsent : target (links v node) t = none) (hpath : path.val = join slash cs)
      (hdir : createDir (v.setCursor next) mount node path t = (none, w)) :
      LoopEnds mount v ts (some (none, w))
  | made {cs us : List CString} {t u : CString} {node child : ℕ} {next : Option Cursor}
      {path : CBuffer 256} {w : Vfs} (next' : Option Cursor) (hts : ts = cs ++ t :: u :: us)
      (hw : walk (links v) mount.node cs = some node) (habsent : target (links v node) t = none)
      (hpath : path.val = join slash cs)
      (hdir : createDir (v.setCursor next) mount node path t = (some child, w))
      (hend : cs ≠ [] ∨ us = []) :
      LoopEnds mount v ts (some (some (child, u), w.setCursor next'))
  | lost {cs us : List CString} {t u : CString} {node : ℕ} (hts : ts = cs ++ t :: u :: us)
      (hw : walk (links v) mount.node cs = some node) (habsent : target (links v node) t = none)
      (hlost : walk (Ramfs.links v.ramfs.inodes) 0 cs = none) :
      LoopEnds mount v ts none
  | failedTwice {us : List CString} {t u x : CString} {child : ℕ} {next next' : Option Cursor}
      {path path' : CBuffer 256} {w w' : Vfs} (hts : ts = t :: u :: x :: us)
      (habsent : target (links v mount.node) t = none) (hpath : path.val = [])
      (hdir : createDir (v.setCursor next) mount mount.node path t = (some child, w))
      (hpath' : path'.val = t)
      (hdir' : createDir (w.setCursor next') mount child path' u = (none, w')) :
      LoopEnds mount v ts (some (none, w'))
  | madeTwice {us : List CString} {t u x : CString} {child child' : ℕ} {next next' : Option Cursor}
      {path path' : CBuffer 256} {w w' : Vfs} (next'' : Option Cursor) (hts : ts = t :: u :: x :: us)
      (habsent : target (links v mount.node) t = none) (hpath : path.val = [])
      (hdir : createDir (v.setCursor next) mount mount.node path t = (some child, w))
      (hpath' : path'.val = t)
      (hdir' : createDir (w.setCursor next') mount child path' u = (some child', w')) :
      LoopEnds mount v ts (some (some (child', x), w'.setCursor next''))

section Loop

variable {v : Vfs} {mount : VfsMount}

lemma strtokNull_own (rest : CString) :
    strtokNull .vfsCreate (some ⟨.vfsCreate, rest⟩) = some (strtok .vfsCreate rest) := by
  simp [strtokNull]

lemma strtokNull_dead (buffer : TokBuffer) (hb : buffer ≠ .vfsCreate) (rest : CString) :
    strtokNull .vfsCreate (some ⟨buffer, rest⟩) =
      if tokens isSlash rest = [] then some (none, some ⟨buffer, rest⟩) else none := by
  simp only [strtokNull, if_neg hb]
  cases ht : tokens isSlash rest with
  | nil => simp [tokenStep_of_nil ht]
  | cons t ts =>
    obtain ⟨rest', hs, _⟩ := tokenStep_of_cons ht
    simp [hs]

lemma createLoop_end {n node : ℕ} {path : CBuffer 256} {t : CString} {next next' : Option Cursor}
    (hnext : strtokNull .vfsCreate next = some (none, next')) (hv : v.ramfs.strtokNext = next) :
    createLoop mount (n + 1) v node path t = some (some (node, t), v.setCursor next') := by
  simp only [createLoop, hv, hnext]

lemma createLoop_lost {n node : ℕ} {path : CBuffer 256} {t : CString} {next : Option Cursor}
    (hnext : strtokNull .vfsCreate next = none) (hv : v.ramfs.strtokNext = next) :
    createLoop mount (n + 1) v node path t = none := by
  simp only [createLoop, hv, hnext]

lemma createDir_cursor (v : Vfs) (mount : VfsMount) (current : ℕ) (path : CBuffer 256) (t : CString) :
    (createDir v mount current path t).2.ramfs.strtokNext =
      (v.ramfs.ramfsMkdir (appendPath path t).val).2.strtokNext := by
  simp only [createDir, mallocNode]
  split
  · next h =>
    have hw := congrArg (fun a => a.2.ramfs.strtokNext) h
    exact hw.symm
  · next h =>
    have hw := congrArg (fun a => a.2.ramfs.strtokNext) h
    exact hw.symm

lemma createDir_child (hs : Ramfs.Sound v.ramfs.inodes) {current child : ℕ}
    (hc : current < v.ramfs.heap.calls) {path : CBuffer 256} {t : CString} {w : Vfs}
    (hdir : createDir v mount current path t = (some child, w)) :
    child = v.ramfs.heap.calls ∧ (w.nodes child).children = [] ∧ Ramfs.Sound w.ramfs.inodes ∧
      child < w.ramfs.heap.calls := by
  have hheap := (Ramfs.mkdir_cases hs (appendPath path t).val).1
  rcases createDir_cases hs mount hc path t with ⟨_, he⟩ | ⟨_, fsFd, w', he, hnew⟩
  · rw [hdir] at he
    cases he
  · rw [hdir] at he
    cases he
    have hself := hnew.self
    have hcalls := hnew.calls
    simp only [hheap] at hself hcalls
    refine ⟨rfl, by rw [hself], ?_, by omega⟩
    rw [hnew.inodes]
    exact hs.step (o := .mkdir (appendPath path t).val) rfl

lemma createDir_outcome (hs : Ramfs.Sound v.ramfs.inodes) {current : ℕ} (hc : current < v.ramfs.heap.calls)
    {path : CBuffer 256} {t : CString} {child : Option ℕ} {w : Vfs}
    (hdir : createDir v mount current path t = (child, w)) :
    (child = none ↔ v.ramfs.heap.outcome v.ramfs.heap.calls = none) ∧
      w.ramfs.heap.calls = v.ramfs.heap.calls + 1 ∧ w.ramfs.heap.outcome = v.ramfs.heap.outcome := by
  have hheap := (Ramfs.mkdir_cases hs (appendPath path t).val).1
  rcases createDir_cases hs mount hc path t with ⟨hout, he⟩ | ⟨hout, fsFd, w', he, hnew⟩
  · rw [hdir] at he
    cases he
    simp [hout, failedMalloc, hheap]
  · rw [hdir] at he
    cases he
    have hcalls := hnew.calls
    have houtcome := hnew.outcome
    simp only [hheap] at hcalls houtcome
    exact ⟨by simp [hout], hcalls, houtcome⟩

lemma createDir_root_cursor (hs : Ramfs.Sound v.ramfs.inodes) {current : ℕ} {path : CBuffer 256} {t : CString}
    (hwt : IsWord isSlash t) (hlen : (join slash ([] ++ [t])).length ≤ 255) (hpath : path.val = [])
    {child : Option ℕ} {w : Vfs} (hdir : createDir v mount current path t = (child, w)) :
    w.ramfs.strtokNext = v.ramfs.strtokNext := by
  have hcursor := createDir_cursor v mount current path t
  have hnil : path.val = join slash [] := hpath
  rw [hdir, appendPath_join hnil (by simp) hlen] at hcursor
  exact hcursor.trans ((mkdir_join_cursor (r := v.ramfs) hs (by simp) hwt hlen).1 rfl)

lemma createDir_outcome_second (hs : Ramfs.Sound v.ramfs.inodes) {current child : ℕ}
    (hc : current < v.ramfs.heap.calls) {path path' : CBuffer 256} {t u : CString} {made : Option ℕ} {w w' : Vfs}
    {next : Option Cursor} (hdir : createDir v mount current path t = (some child, w))
    (hdir' : createDir (w.setCursor next) mount child path' u = (made, w')) :
    made = none ↔ v.ramfs.heap.outcome (v.ramfs.heap.calls + 1) = none := by
  obtain ⟨_, _, hsw, hlt⟩ := createDir_child hs hc hdir
  obtain ⟨_, hcalls, houtcome⟩ := createDir_outcome hs hc hdir
  obtain ⟨hmade, _⟩ := createDir_outcome (v := w.setCursor next) hsw hlt hdir'
  rw [← hcalls, ← houtcome]
  exact hmade

lemma createLoop_second (hs : Ramfs.Sound v.ramfs.inodes) {us : List CString} {t u x : CString}
    (hwt : IsWord isSlash t) (hwu : IsWord isSlash u) (hlen : (join slash ([t] ++ [u])).length ≤ 255)
    {n child : ℕ} {path : CBuffer 256} {rest : CString} (hlt : mount.node < v.ramfs.heap.calls)
    (hpath : path.val = []) (hrest : tokens isSlash rest = x :: us) (hn : 0 < n) {w : Vfs}
    (hdir : createDir (v.setCursor (some ⟨.vfsCreate, rest⟩)) mount mount.node path t = (some child, w))
    (hcursor : w.ramfs.strtokNext = some ⟨.vfsCreate, rest⟩) :
    (appendPath path t).val = t ∧ ∃ next next', createLoop mount (n + 1) w child (appendPath path t) u =
      match createDir (w.setCursor next) mount child (appendPath path t) u with
      | (none, w') => some (none, w')
      | (some child', w') => some (some (child', x), w'.setCursor next') := by
  obtain ⟨_, hleaf, hsw, _⟩ :=
    createDir_child (v := v.setCursor (some ⟨.vfsCreate, rest⟩)) hs hlt hdir
  obtain ⟨rest', hstep, _⟩ := tokenStep_of_cons hrest
  have hnext : strtokNull .vfsCreate w.ramfs.strtokNext =
      some (some x, some ⟨.vfsCreate, rest'⟩) := by
    rw [hcursor, strtokNull_own, strtok, hstep]
  have hnone : findChild w.nodes child u = none := by
    rw [findChild, hleaf]
    rfl
  have hone : ∀ c ∈ [t], IsWord isSlash c := by simpa using hwt
  have hlent : (join slash ([] ++ [t])).length ≤ 255 :=
    (length_join_le_append slash ([] ++ [t]) [u]).trans hlen
  have hnil : path.val = join slash [] := hpath
  have happend := appendPath_join hnil (by simp) hlent
  rw [List.nil_append, join_singleton] at happend
  have hjoin : (appendPath path t).val = join slash [t] := by rw [happend, join_singleton]
  have hcursor' := createDir_cursor (w.setCursor (some ⟨.vfsCreate, rest'⟩)) mount child
    (appendPath path t) u
  rw [appendPath_join hjoin hone hlen] at hcursor'
  obtain ⟨rest'', hc'', hlen'', _⟩ := (mkdir_join_cursor
    (r := (w.setCursor (some ⟨.vfsCreate, rest'⟩)).ramfs) hsw hone hwu hlen).2 (by simp)
  have hdone : tokens isSlash rest'' = [] := List.eq_nil_of_length_eq_zero (by
    simpa using hlen'')
  have hnext' : strtokNull .vfsCreate (some ⟨.ramfsFindInode, rest''⟩) =
      some (none, some ⟨.ramfsFindInode, rest''⟩) := by
    rw [strtokNull_dead _ (by decide), if_pos hdone]
  refine ⟨happend, some ⟨.vfsCreate, rest'⟩, some ⟨.ramfsFindInode, rest''⟩, ?_⟩
  simp only [createLoop, hnext, hnone]
  cases hdir' : createDir (w.setCursor (some ⟨.vfsCreate, rest'⟩)) mount child
      (appendPath path t) u with
  | mk made' w' =>
  rw [hdir'] at hcursor'
  cases made' with
  | none => rfl
  | some child' =>
    obtain ⟨n, rfl⟩ := Nat.exists_eq_succ_of_ne_zero (Nat.ne_of_gt hn)
    simp only [createLoop_end hnext' (hcursor'.trans hc'')]

lemma createLoop_below (hs : Ramfs.Sound v.ramfs.inodes) {ts us : List CString} {t u x : CString}
    (hwords : ∀ c ∈ ts, IsWord isSlash c) (hlen : (join slash ts).length ≤ 255)
    (hts : ts = t :: u :: x :: us) {n child : ℕ} {path : CBuffer 256} {rest : CString}
    (hlt : mount.node < v.ramfs.heap.calls) (habsent : target (links v mount.node) t = none)
    (hpath : path.val = []) (hrest : tokens isSlash rest = x :: us) (hn : us.length + 1 < n + 1)
    {w : Vfs} (hdir : createDir (v.setCursor (some ⟨.vfsCreate, rest⟩)) mount mount.node path t =
      (some child, w))
    (hcursor : w.ramfs.strtokNext = some ⟨.vfsCreate, rest⟩) :
    LoopEnds mount v ts (createLoop mount (n + 1) w child (appendPath path t) u) := by
  have hwt : IsWord isSlash t := hwords t (by rw [hts]; simp)
  have hwu : IsWord isSlash u := hwords u (by rw [hts]; simp)
  have hlenu : (join slash ([t] ++ [u])).length ≤ 255 :=
    (length_join_le_append slash ([t] ++ [u]) (x :: us)).trans (by
      rw [hts] at hlen
      exact hlen)
  obtain ⟨happend, next, next', hloop⟩ :=
    createLoop_second hs hwt hwu hlenu (n := n) hlt hpath hrest (by omega) hdir hcursor
  rw [hloop]
  cases hdir' : createDir (w.setCursor next) mount child (appendPath path t) u with
  | mk made' w' =>
  cases made' with
  | none => exact .failedTwice hts habsent hpath hdir happend hdir'
  | some child' => exact .madeTwice _ hts habsent hpath hdir happend hdir'

lemma createLoop_dead (hs : Ramfs.Sound v.ramfs.inodes) {cs : List CString} {t u : CString}
    (hcs : cs ≠ []) (hwcs : ∀ c ∈ cs, IsWord isSlash c) (hwt : IsWord isSlash t)
    (hlen : (join slash (cs ++ [t])).length ≤ 255) {node child n : ℕ} {path q : CBuffer 256}
    (hpath : path.val = join slash cs) {next : Option Cursor} {w : Vfs}
    (hdir : createDir (v.setCursor next) mount node path t = (some child, w)) :
    (walk (Ramfs.links v.ramfs.inodes) 0 cs.dropLast = none ∧
        createLoop mount (n + 1) w child q u = none) ∨
      (walk (Ramfs.links v.ramfs.inodes) 0 cs.dropLast ≠ none ∧
        ∃ next', createLoop mount (n + 1) w child q u = some (some (child, u), w.setCursor next')) := by
  have hcursor := createDir_cursor (v.setCursor next) mount node path t
  rw [hdir, appendPath_join hpath hwcs hlen] at hcursor
  obtain ⟨rest', hc', _, hfound⟩ :=
    (mkdir_join_cursor (r := (v.setCursor next).ramfs) hs hwcs hwt hlen).2 hcs
  have hnext := strtokNull_dead .ramfsFindInode (by decide) rest'
  by_cases hdone : tokens isSlash rest' = []
  · rw [if_pos hdone] at hnext
    exact .inr ⟨hfound.mp hdone, _, createLoop_end hnext (hcursor.trans hc')⟩
  · rw [if_neg hdone] at hnext
    exact .inl ⟨by_contra fun hne => hdone (hfound.mpr hne), createLoop_lost hnext (hcursor.trans hc')⟩

lemma createLoop_missing (hs : Ramfs.Sound v.ramfs.inodes) {ts cs us : List CString} {t u : CString}
    (hwords : ∀ c ∈ ts, IsWord isSlash c) (hlen : (join slash ts).length ≤ 255)
    (hts : ts = cs ++ t :: u :: us) {node n : ℕ} {path : CBuffer 256} {rest : CString}
    (hw : walk (links v) mount.node cs = some node) (hlt : node < v.ramfs.heap.calls)
    (habsent : target (links v node) t = none) (hpath : path.val = join slash cs)
    (hrest : tokens isSlash rest = us) (hn : us.length < n) :
    LoopEnds mount v ts
      (match createDir (v.setCursor (some ⟨.vfsCreate, rest⟩)) mount node path t with
        | (none, w) => some (none, w)
        | (some child, w) => createLoop mount n w child (appendPath path t) u) := by
  obtain ⟨n, rfl⟩ := Nat.exists_eq_succ_of_ne_zero (Nat.ne_of_gt (Nat.zero_lt_of_lt hn))
  have hsplit : ts = (cs ++ [t]) ++ u :: us := by rw [hts]; simp
  have hlen' : (join slash (cs ++ [t])).length ≤ 255 :=
    (length_join_le_append slash (cs ++ [t]) (u :: us)).trans (hsplit ▸ hlen)
  have hwcs : ∀ c ∈ cs, IsWord isSlash c := fun c hc => hwords c (by rw [hts]; simp [hc])
  have hwt : IsWord isSlash t := hwords t (by rw [hts]; simp)
  cases hdir : createDir (v.setCursor (some ⟨.vfsCreate, rest⟩)) mount node path t with
  | mk made w =>
  cases made with
  | none => exact .failed hts hw habsent hpath hdir
  | some child =>
    by_cases hcs : cs = []
    · subst hcs
      have hcursor : w.ramfs.strtokNext = some ⟨.vfsCreate, rest⟩ :=
        createDir_root_cursor (v := v.setCursor (some ⟨.vfsCreate, rest⟩)) hs hwt hlen' hpath hdir
      cases us with
      | nil =>
        have hnext : strtokNull .vfsCreate (some ⟨.vfsCreate, rest⟩) =
            some (none, some ⟨.vfsCreate, []⟩) := by
          rw [strtokNull_own, strtok, tokenStep_of_nil hrest]
        simp only [createLoop_end hnext hcursor]
        exact .made _ hts hw habsent hpath hdir (.inr rfl)
      | cons x us =>
        rw [walk_nil, Option.some.injEq] at hw
        subst hw
        exact createLoop_below hs hwords hlen hts hlt habsent hpath hrest hn hdir hcursor
    · rcases createLoop_dead (n := n) (q := appendPath path t) (u := u) hs hcs hwcs hwt hlen' hpath hdir with
        ⟨hlost, hloop⟩ | ⟨_, next', hloop⟩
      · simp only [hloop]
        exact .lost hts hw habsent (by_contra fun hne => walk_dropLast hne hlost)
      · simp only [hloop]
        exact .made next' hts hw habsent hpath hdir (.inl hcs)

lemma createLoop_reach {ts : List CString}
    (hwords : ∀ c ∈ ts, IsWord isSlash c) (hlen : (join slash ts).length ≤ 255)
    {us cs : List CString} {t : CString} (hts : ts = cs ++ t :: us) {node n : ℕ} {path : CBuffer 256}
    {rest : CString} (hw : walk (links v) mount.node cs = some node)
    (hpath : path.val = join slash cs) (hrest : tokens isSlash rest = us) (hn : us.length < n) :
    (∃ ds d i next, ts = ds ++ [d] ∧ walk (links v) mount.node ds = some i ∧
        createLoop mount n (v.setCursor (some ⟨.vfsCreate, rest⟩)) node path t =
          some (some (i, d), v.setCursor next)) ∨
      ∃ ds d e es i k q rest', ts = ds ++ d :: e :: es ∧ walk (links v) mount.node ds = some i ∧
        target (links v i) d = none ∧ q.val = join slash ds ∧ tokens isSlash rest' = es ∧
        es.length < k ∧ createLoop mount n (v.setCursor (some ⟨.vfsCreate, rest⟩)) node path t =
          match createDir (v.setCursor (some ⟨.vfsCreate, rest'⟩)) mount i q d with
          | (none, w) => some (none, w)
          | (some child, w) => createLoop mount k w child (appendPath q d) e := by
  induction us generalizing cs t node n path rest with
  | nil =>
    obtain ⟨n, rfl⟩ := Nat.exists_eq_succ_of_ne_zero (Nat.ne_of_gt hn)
    have hnext : strtokNull .vfsCreate (some ⟨.vfsCreate, rest⟩) =
        some (none, some ⟨.vfsCreate, []⟩) := by
      rw [strtokNull_own, strtok, tokenStep_of_nil hrest]
    exact .inl ⟨cs, t, node, _, hts, hw, createLoop_end hnext rfl⟩
  | cons u us ih =>
    obtain ⟨n, rfl⟩ := Nat.exists_eq_succ_of_ne_zero (Nat.ne_of_gt (Nat.zero_lt_of_lt hn))
    obtain ⟨rest', hstep, hrest'⟩ := tokenStep_of_cons hrest
    have hnext : strtokNull .vfsCreate (some ⟨.vfsCreate, rest⟩) =
        some (some u, some ⟨.vfsCreate, rest'⟩) := by
      rw [strtokNull_own, strtok, hstep]
    have hn' : us.length < n := by
      rw [List.length_cons] at hn
      omega
    rw [createLoop]
    simp only [setCursor, hnext]
    rw [findChild_eq]
    cases htarget : target (links v node) t with
    | none => exact .inr ⟨cs, t, u, us, node, n, path, rest', hts, hw, htarget, hpath, hrest', hn', rfl⟩
    | some child =>
      have hsplit : ts = (cs ++ [t]) ++ u :: us := by rw [hts]; simp
      have hlen' : (join slash (cs ++ [t])).length ≤ 255 :=
        (length_join_le_append slash (cs ++ [t]) (u :: us)).trans (hsplit ▸ hlen)
      have hwcs : ∀ c ∈ cs, IsWord isSlash c := fun c hc => hwords c (by rw [hts]; simp [hc])
      refine ih hsplit ?_ (appendPath_join hpath hwcs hlen') hrest' hn'
      rw [walk_concat, hw]
      exact htarget

lemma createLoop_from (hs : Ramfs.Sound v.ramfs.inodes) (hr : Rooted v mount.node)
    {ts : List CString} (hwords : ∀ c ∈ ts, IsWord isSlash c) (hlen : (join slash ts).length ≤ 255)
    {us cs : List CString} {t : CString} (hts : ts = cs ++ t :: us) {node n : ℕ} {path : CBuffer 256}
    {rest : CString} (hw : walk (links v) mount.node cs = some node)
    (hpath : path.val = join slash cs) (hrest : tokens isSlash rest = us) (hn : us.length < n) :
    LoopEnds mount v ts (createLoop mount n (v.setCursor (some ⟨.vfsCreate, rest⟩)) node path t) := by
  rcases createLoop_reach hwords hlen hts hw hpath hrest hn with
    ⟨ds, d, i, next, hds, hi, hloop⟩ | ⟨ds, d, e, es, i, k, q, rest', hds, hi, habsent, hq, hes, hk, hloop⟩
  · rw [hloop]
    exact .found next hds hi
  · rw [hloop]
    exact createLoop_missing hs hwords hlen hds hi (hr.walk_lt hi) habsent hq hes hk

lemma createLoop_ends (hs : Ramfs.Sound v.ramfs.inodes) (hr : Rooted v mount.node) {rel rest : CString}
    {t : CString} {us : List CString} (hts : Ramfs.components rel = t :: us)
    (hrest : tokens isSlash rest = us) :
    LoopEnds mount v (t :: us)
      (createLoop mount 256 (v.setCursor (some ⟨.vfsCreate, rest⟩)) mount.node ⟨[], by decide⟩ t) := by
  have hlen := length_join_tokens_le isSlash slash (rel.take 255)
  have hcount := length_tokens_le isSlash (rel.take 255)
  have htake := List.length_take_le 255 rel
  rw [show tokens isSlash (rel.take 255) = t :: us from hts] at hlen hcount
  rw [List.length_cons] at hcount
  refine createLoop_from hs hr (fun c hc => ?_) (hlen.trans htake) (show t :: us = [] ++ t :: us from rfl)
    rfl rfl hrest (by omega)
  rw [← hts] at hc
  exact isWord_of_mem isSlash hc

end Loop

end Veni.Filesystem.Vfs
