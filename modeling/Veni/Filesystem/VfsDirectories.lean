import Veni.Filesystem.VfsEntries

/-! The directories that `vfs_create` makes, in both trees. -/

namespace Veni.Filesystem

open Veni.Libc Veni.Lib.Tokens Veni.Lib.NameGraph

lemma components_word {p c : CString} (h : c ∈ Ramfs.components p) : IsWord isSlash c :=
  isWord_of_mem isSlash h

lemma components_length (rel : CString) : (join slash (Ramfs.components rel)).length ≤ 255 :=
  (length_join_tokens_le isSlash slash _).trans (List.length_take_le 255 rel)

namespace Vfs

def Memory (v : Vfs) (k : ℕ) : Prop := v.ramfs.heap.outcome (v.ramfs.heap.calls + k) ≠ none

def slots (v : Vfs) : ℕ := Ramfs.freeSlots v.ramfs.inodes

def Missing (v : Vfs) (root : ℕ) (cs : List CString) (t : CString) : Prop :=
  v.entry root cs ≠ none ∧ v.entry root (cs ++ [t]) = none

section Directories

variable {v : Vfs} {root fs current : ℕ} {path : CBuffer 256} {cs : List CString} {t : CString}

lemma entered_join (hw : ∀ c ∈ cs, IsWord isSlash c) (ht : IsWord isSlash t)
    (hlen : (join slash (cs ++ [t])).length ≤ 255) :
    Ramfs.entered (join slash (cs ++ [t])) = cs ++ [t.take 31] := by
  have hcs := (length_join_le_append slash cs [t]).trans hlen
  rw [Ramfs.entered, Ramfs.splitPath_join ht hlen, Ramfs.components_join hw hcs]

lemma room_join (h : Ramfs.Sound v.ramfs.inodes) (hw : ∀ c ∈ cs, IsWord isSlash c)
    (ht : IsWord isSlash t) (hlen : (join slash (cs ++ [t])).length ≤ 255) :
    v.ramfs.Room (join slash (cs ++ [t])) ↔
      v.ramfs.entry cs = some .dir ∧ v.ramfs.entry (cs ++ [t]) = none ∧ 0 < v.slots := by
  have hcs := (length_join_le_append slash cs [t]).trans hlen
  rw [Ramfs.room_iff h, Ramfs.place, Ramfs.splitPath_join ht hlen, Ramfs.components_join hw hcs]
  rfl

structure DirMade (v w : Vfs) (root fs current : ℕ) (cs : List CString) (t : CString)
    (child : Option ℕ) : Prop where
  ready : Ready w root fs
  ramfs : (v.ramfs.Room (join slash (cs ++ [t])) ∧
      w.ramfs.entry = gain v.ramfs.entry (cs ++ [t.take 31]) (some .dir) ∧ w.slots + 1 = v.slots ∧
      ∀ k idx, Ramfs.NthFree w.ramfs.inodes k idx → Ramfs.NthFree v.ramfs.inodes (k + 1) idx) ∨
    ¬ v.ramfs.Room (join slash (cs ++ [t])) ∧ w.ramfs.inodes = v.ramfs.inodes
  memory : ∀ k, Memory w k ↔ Memory v (k + 1)
  failed : child = none → ¬ Memory v 0 ∧ w.nodes = v.nodes
  made : ∀ i, child = some i → Memory v 0 ∧ links w i = [] ∧ (∀ ns, walk (links v) root ns ≠ some i) ∧
    (∀ ps, walk (links v) root ps = some current → (∀ ns, walk (links w) root ns =
        (walk (links v) root ns).or (if ns = ps ++ [t.take 31] then some i else none)) ∧
      w.entry root = gain (v.entry root) (ps ++ [t.take 31]) (some .dir)) ∧
    ((∀ ps, walk (links v) root ps ≠ some current) → w.entry root = v.entry root)

lemma createDir_made (h : Ready v root fs) (hc : current < v.ramfs.heap.calls)
    (hw : ∀ c ∈ cs, IsWord isSlash c) (ht : IsWord isSlash t)
    (hlen : (join slash (cs ++ [t])).length ≤ 255)
    (hstr : (appendPath path t).val = join slash (cs ++ [t])) :
    DirMade v (createDir v (rootMount root fs) current path t).2 root fs current cs t
      (createDir v (rootMount root fs) current path t).1 := by
  have hready := createDir_ready h (rootMount root fs) hc path t
  have hmkdir := Ramfs.mkdir_entry v.ramfs h.sound (join slash (cs ++ [t]))
  have hheap := (Ramfs.mkdir_cases h.sound (join slash (cs ++ [t]))).1
  have hmade := h.mkdir (join slash (cs ++ [t]))
  rw [entered_join hw ht hlen] at hmkdir
  have hcases := createDir_cases h.sound (rootMount root fs) hc path t
  rw [hstr] at hcases
  generalize createDir v (rootMount root fs) current path t = res at hready hcases ⊢
  obtain ⟨child, w⟩ := res
  have hinodes : w.ramfs.inodes = (v.ramfs.ramfsMkdir (join slash (cs ++ [t]))).2.inodes := by
    rcases hcases with ⟨_, he⟩ | ⟨_, _, _, he, hnew⟩
    · cases he
      rfl
    · cases he
      exact hnew.inodes
  refine ⟨hready, ?_, fun k => ?_, fun hnone => ?_, fun i hi => ?_⟩
  · rw [Ramfs.entry_congr hinodes, slots, hinodes]
    rcases hmkdir with hroom | ⟨hroom, _, hsame⟩
    · exact .inl hroom
    · exact .inr ⟨hroom, hsame⟩
  · have hheapw : w.ramfs.heap.outcome = v.ramfs.heap.outcome ∧
        w.ramfs.heap.calls = v.ramfs.heap.calls + 1 := by
      rcases hcases with ⟨_, he⟩ | ⟨_, _, _, he, hnew⟩
      · cases he
        simp only [failedMalloc, hheap, and_self]
      · cases he
        exact ⟨by rw [hnew.outcome, hheap], by rw [hnew.calls, hheap]⟩
    rw [Memory, Memory, hheapw.1, hheapw.2, Nat.add_assoc, Nat.add_comm 1 k]
  · subst hnone
    rcases hcases with ⟨hout, he⟩ | ⟨_, _, _, he, _⟩
    · cases he
      exact ⟨fun hm => hm hout, rfl⟩
    · cases he
  · simp only at hi
    subst hi
    rcases hcases with ⟨_, he⟩ | ⟨hout, fsFd, _, he, hnew⟩
    · cases he
    · cases he
      have hself := hnew.self
      have hgain := fun ps (hp : walk (links v) root ps = some current) =>
        hnew.walk_gain hmade.rooted hp rfl
      simp only [hheap] at hself hgain
      refine ⟨hout, by rw [links, hself]; rfl, fun ns hns => absurd (h.rooted.walk_lt hns) (lt_irrefl _),
        fun ps hp => ⟨hgain ps hp, hnew.entry_eq hmade.rooted hp rfl⟩, fun hun => ?_⟩
      exact hnew.entry_of_unreached hmade.rooted hun (by rw [hheap]; exact hc) rfl

variable {w : Vfs} {child : Option ℕ}

lemma DirMade.of_cursor {next : Option Cursor}
    (hd : DirMade (v.setCursor next) w root fs current cs t child) :
    DirMade v w root fs current cs t child :=
  ⟨hd.ready, hd.ramfs, hd.memory, hd.failed, hd.made⟩

lemma dir_words {rel u : CString} {us : List CString}
    (hts : Ramfs.components rel = cs ++ t :: u :: us) :
    (∀ c ∈ cs, IsWord isSlash c) ∧ IsWord isSlash t ∧ IsWord isSlash u ∧
      (join slash (cs ++ [t])).length < 255 := by
  have hword : ∀ c ∈ cs ++ t :: u :: us, IsWord isSlash c := fun c hc => components_word (hts ▸ hc)
  have hlen := components_length rel
  rw [hts, List.append_cons] at hlen
  have hlt := length_join_append_lt slash (show u :: us ≠ [] by simp)
    (fun c hc => (hword c (by simp only [List.mem_append, List.mem_cons] at hc ⊢; tauto)).1)
    (show cs ++ [t] ≠ [] by simp)
  exact ⟨fun c hc => hword c (List.mem_append_left _ hc), hword t (by simp), hword u (by simp), by omega⟩

lemma missing_of_target {node : ℕ} (hw : walk (links v) root cs = some node)
    (habsent : target (links v node) t = none) : Missing v root cs t := by
  refine ⟨fun hnone => ?_, ?_⟩
  · rw [entry_eq_none, hw] at hnone
    cases hnone
  · rw [entry_eq_none, walk_concat, hw]
    exact habsent

lemma DirMade.walk_child {node child : ℕ} (hd : DirMade v w root fs node cs t (some child))
    (hw : walk (links v) root cs = some node) (habsent : target (links v node) t = none) :
    walk (links w) root (cs ++ [t]) = if t.length ≤ 31 then some child else none := by
  obtain ⟨_, _, _, hgain, _⟩ := hd.made child rfl
  rw [(hgain cs hw).1, walk_concat, hw, Option.bind_some, habsent, Option.none_or]
  simp only [List.append_cancel_left_eq, List.cons.injEq, and_true, eq_comm (a := t),
    List.take_eq_self_iff]

lemma DirMade.unreached {node child : ℕ} (hd : DirMade v w root fs node cs t (some child))
    (hw : walk (links v) root cs = some node) (hthere : v.entry root (cs ++ [t.take 31]) ≠ none)
    (ns : List CString) : walk (links w) root ns ≠ some child := by
  obtain ⟨_, _, hnew, hgain, _⟩ := hd.made child rfl
  intro hns
  rw [(hgain cs hw).1] at hns
  cases hv : walk (links v) root ns with
  | some i =>
    rw [hv, Option.some_or] at hns
    exact hnew ns (hv.trans hns)
  | none =>
    rw [hv, Option.none_or] at hns
    split at hns
    · next heq => exact hthere (entry_eq_none.mpr (heq ▸ hv))
    · cases hns

lemma DirMade.entry_unreached {child : Option ℕ} (hd : DirMade v w root fs current cs t child)
    (hun : ∀ ns, walk (links v) root ns ≠ some current) : w.entry root = v.entry root := by
  cases child with
  | none => exact entry_congr (hd.failed rfl).2
  | some i => exact (hd.made i rfl).2.2.2.2 hun

lemma DirMade.slots {node : ℕ} {child : Option ℕ} (hd : DirMade v w root fs node cs t child)
    (hs : Ramfs.Sound v.ramfs.inodes) (hwcs : ∀ c ∈ cs, IsWord isSlash c) (hwt : IsWord isSlash t)
    (hlen : (join slash (cs ++ [t])).length ≤ 255) (hold : v.ramfs.entry (cs ++ [t]) = none)
    (hnew : w.ramfs.entry (cs ++ [t]) ≠ none) :
    v.ramfs.entry cs = some .dir ∧ w.slots + 1 = v.slots := by
  rcases hd.ramfs with ⟨hroom, _, hslots, _⟩ | ⟨_, hr⟩
  · exact ⟨((room_join hs hwcs hwt hlen).mp hroom).1, hslots⟩
  · rw [Ramfs.entry_congr hr] at hnew
    exact absurd hold hnew

variable {rel u : CString} {us : List CString} {w : Vfs} {child : Option ℕ}

lemma Ready.dirMade (h : Ready v root fs) (hts : Ramfs.components rel = cs ++ t :: u :: us)
    {next : Option Cursor} (hw : walk (links v) root cs = some current)
    (hpath : path.val = join slash cs)
    (hdir : createDir (v.setCursor next) (rootMount root fs) current path t = (child, w)) :
    DirMade v w root fs current cs t child := by
  obtain ⟨hwcs, hwt, _, hlen⟩ := dir_words hts
  have hmade := createDir_made (h.cursor next) (h.rooted.walk_lt hw) hwcs hwt hlen.le
    (appendPath_join hpath hwcs hlen.le)
  rw [hdir] at hmade
  exact hmade.of_cursor

lemma Ready.dirMade_below (h : Ready v root fs) {x : CString}
    (hts : Ramfs.components rel = t :: u :: x :: us) {child : ℕ} {path' : CBuffer 256}
    {next next' : Option Cursor} {child' : Option ℕ} {z : Vfs} (hpath : path.val = [])
    (hdir : createDir (v.setCursor next) (rootMount root fs) root path t = (some child, w))
    (hpath' : path'.val = t)
    (hdir' : createDir (w.setCursor next') (rootMount root fs) child path' u = (child', z)) :
    DirMade w z root fs child [t] u child' := by
  obtain ⟨hone, hwu, _, hlen⟩ := dir_words (show _ = [t] ++ u :: x :: us from hts)
  have hmade := h.dirMade (show _ = [] ++ t :: u :: x :: us from hts) rfl hpath hdir
  have hlt : child < w.ramfs.heap.calls :=
    (createDir_child (v := v.setCursor next) h.sound h.rooted.root_lt hdir).2.2.2
  have hmade' := createDir_made (hmade.ready.cursor next') hlt hone hwu hlen.le
    (appendPath_join (hpath'.trans (join_singleton slash t).symm) hone hlen.le)
  rw [hdir'] at hmade'
  exact hmade'.of_cursor

end Directories

end Vfs

end Veni.Filesystem
