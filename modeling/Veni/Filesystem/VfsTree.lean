import Veni.Filesystem.RamfsInvariant
import Veni.Filesystem.Vfs

/-! The nodes below one mount at `/` as a tree of links: lookups and new nodes. -/

namespace Veni.Filesystem.Vfs

open Veni.Libc Veni.Lib.Tokens Veni.Lib.NameGraph

def links (v : Vfs) (i : ℕ) : List (CString × ℕ) :=
  (v.nodes i).children.map fun c => ((v.nodes c).name.val, c)

lemma mem_links {v : Vfs} {i c : ℕ} {n : CString} :
    (n, c) ∈ links v i ↔ c ∈ (v.nodes i).children ∧ (v.nodes c).name.val = n := by
  simp only [links, List.mem_map, Prod.mk.injEq]
  constructor
  · rintro ⟨d, hd, hn, rfl⟩
    exact ⟨hd, hn⟩
  · rintro ⟨hc, hn⟩
    exact ⟨c, hc, hn, rfl⟩

lemma findChild_eq (v : Vfs) (i : ℕ) (n : CString) : findChild v.nodes i n = target (links v i) n := by
  simp only [findChild, target, links, List.find?_map, Option.map_map]
  exact (congrFun Option.map_id _).symm

lemma resolveLoop_eq {v : Vfs} {n node : ℕ} {rest : CString} (hn : (tokens isSlash rest).length < n) :
    (resolveLoop v.nodes n node rest).1 = walk (links v) node (tokens isSlash rest) := by
  induction n generalizing node rest with
  | zero => omega
  | succ n ih =>
    simp only [resolveLoop]
    cases ht : tokens isSlash rest with
    | nil => simp [tokenStep_of_nil ht]
    | cons t ts =>
      obtain ⟨rest', hs, hrest⟩ := tokenStep_of_cons ht
      rw [hs, walk_cons, ← findChild_eq]
      rw [ht, List.length_cons] at hn
      simp only
      cases findChild v.nodes node t with
      | none => rfl
      | some child =>
        simp only [Option.bind_some, ← hrest]
        exact ih (by rw [hrest]; omega)

def rootMount (root fs : ℕ) : VfsMount := ⟨strncpy 255 [slash], root, fs⟩

def Mounted (v : Vfs) (root fs : ℕ) : Prop := v.mounts = [rootMount root fs]

def relOf (path : CString) : CString :=
  if (path.drop 1).head? = some slash then (path.drop 1).tail else path.drop 1

lemma relPath_eq (root fs : ℕ) (path : CString) : relPath (rootMount root fs) path = relOf path := rfl

section Mounted

variable {v : Vfs} {root fs : ℕ} (h : Mounted v root fs)

include h

lemma Mounted.ne_nil : v.mounts ≠ [] := by
  rw [h]
  simp

lemma Mounted.findMount {path : CString} (hp : path.head? = some slash) :
    v.findMount path = some (rootMount root fs) := by
  obtain ⟨rest, rfl⟩ : ∃ rest, path = slash :: rest := by
    cases path with
    | nil => simp at hp
    | cons c cs =>
      rw [List.head?_cons, Option.some.injEq] at hp
      exact ⟨cs, by rw [hp]⟩
  have hm : v.mounts = [rootMount root fs] := h
  simp [Vfs.findMount, findMountIdx, findMountLoop, mountMatches, hm, rootMount, strncpy]

lemma Mounted.pathMount (path : CString) :
    v.pathMount path = if path.head? = some slash then some (rootMount root fs) else none := by
  unfold Vfs.pathMount
  by_cases hp : path.head? = some slash
  · rw [if_neg (not_or.mpr ⟨not_not.mpr hp, h.ne_nil⟩), if_pos hp, h.findMount hp]
  · rw [if_pos (.inl hp), if_neg hp]

lemma Mounted.resolve_eq {path : CString} (hp : path.head? = some slash) :
    (v.vfsResolve path).1 = walk (links v) root (Ramfs.components (relOf path)) := by
  unfold vfsResolve
  rw [if_neg (not_or.mpr ⟨not_not.mpr hp, h.ne_nil⟩), h.findMount hp]
  simp only
  split
  · next hr =>
    rw [relPath_eq] at hr
    rw [hr]
    rfl
  · exact resolveLoop_eq (Nat.lt_succ_of_le (length_tokens_le isSlash _))

end Mounted

lemma resolve_of_not_absolute {v : Vfs} {path : CString} (hp : path.head? ≠ some slash) :
    v.vfsResolve path = (none, v) := by
  rw [vfsResolve, if_pos (.inl hp)]

lemma resolve_state (v : Vfs) (path : CString) :
    ∃ next, (v.vfsResolve path).2 = v.setCursor next := by
  unfold vfsResolve
  split
  · exact ⟨v.ramfs.strtokNext, rfl⟩
  · split
    · exact ⟨v.ramfs.strtokNext, rfl⟩
    · simp only
      split
      · exact ⟨v.ramfs.strtokNext, rfl⟩
      · exact ⟨_, rfl⟩

structure Rooted (v : Vfs) (root : ℕ) : Prop where
  tree : Tree (links v) root
  root_lt : root < v.ramfs.heap.calls
  child_lt : ∀ i, ∀ c ∈ (v.nodes i).children, c < v.ramfs.heap.calls
  leaf : ∀ i, v.ramfs.heap.calls ≤ i → (v.nodes i).children = []
  root_dir : (v.nodes root).type = .dir

lemma Rooted.walk_lt {v : Vfs} {root i : ℕ} (h : Rooted v root) {ns : List CString}
    (hw : walk (links v) root ns = some i) : i < v.ramfs.heap.calls :=
  walk_invariant (I := fun i => i < v.ramfs.heap.calls)
    (fun i _ j _ hj => h.child_lt i j (mem_links.mp hj).1) h.root_lt hw

lemma links_congr {v w : Vfs} (h : w.nodes = v.nodes) : links w = links v := by
  funext i
  simp only [links, h]

lemma Rooted.congr {v w : Vfs} {root : ℕ} (h : Rooted v root) (hn : w.nodes = v.nodes)
    (hc : v.ramfs.heap.calls ≤ w.ramfs.heap.calls) : Rooted w root where
  tree := by
    rw [links_congr hn]
    exact h.tree
  root_lt := h.root_lt.trans_le hc
  child_lt i c hci := by
    rw [hn] at hci
    exact (h.child_lt i c hci).trans_le hc
  leaf i hi := by
    rw [hn]
    exact h.leaf i (hc.trans hi)
  root_dir := by
    rw [hn]
    exact h.root_dir

structure NewNode (v w : Vfs) (current : ℕ) (x : VfsNode) : Prop where
  self : w.nodes v.ramfs.heap.calls = x
  parent : w.nodes current = { v.nodes current with
    children := (v.nodes current).children ++ [v.ramfs.heap.calls] }
  other : ∀ i, i ≠ v.ramfs.heap.calls → i ≠ current → w.nodes i = v.nodes i
  files : w.files = v.files
  mounts : w.mounts = v.mounts
  inodes : w.ramfs.inodes = v.ramfs.inodes
  cursor : w.ramfs.strtokNext = v.ramfs.strtokNext
  outcome : w.ramfs.heap.outcome = v.ramfs.heap.outcome
  calls : w.ramfs.heap.calls = v.ramfs.heap.calls + 1
  buffers : ∃ b, w.ramfs.heap.buffers =
    Function.update v.ramfs.heap.buffers v.ramfs.heap.calls (some b)

section NewNode

variable {v w : Vfs} {root current : ℕ} {x : VfsNode} (h : NewNode v w current x)

include h

lemma NewNode.keeps {i : ℕ} (hi : i ≠ v.ramfs.heap.calls) :
    ∃ cs, w.nodes i = { v.nodes i with children := cs } := by
  by_cases hc : i = current
  · subst hc
    exact ⟨_, h.parent⟩
  · exact ⟨_, h.other i hi hc⟩

lemma NewNode.links_eq (hr : Rooted v root) (hc : current < v.ramfs.heap.calls)
    (hx : x.children = []) :
    links w = link (links v) current x.name.val v.ramfs.heap.calls := by
  have hname : ∀ i, ∀ c ∈ (v.nodes i).children, (w.nodes c).name = (v.nodes c).name := by
    intro i c hci
    obtain ⟨cs, hcs⟩ := h.keeps (hr.child_lt i c hci).ne
    rw [hcs]
  have hmap : ∀ i, ((v.nodes i).children.map fun c => ((w.nodes c).name.val, c)) = links v i :=
    fun i => List.map_congr_left fun c hci => by rw [hname i c hci]
  funext i
  by_cases hi : i = v.ramfs.heap.calls
  · subst hi
    have hne : v.ramfs.heap.calls ≠ current := by omega
    rw [link_of_ne hne, links, links, h.self, hx, hr.leaf _ le_rfl]
    rfl
  · by_cases hic : i = current
    · subst hic
      rw [link_self, links, h.parent, List.map_append, hmap, List.map_singleton, h.self]
    · rw [link_of_ne hic, links, h.other i hi hic, hmap]

lemma NewNode.walk_or (hr : Rooted v root) (hc : current < v.ramfs.heap.calls) (hx : x.children = [])
    (ns : List CString) : walk (links w) root ns = walk (links v) root ns ∨
      walk (links v) root ns = none ∧ walk (links w) root ns = some v.ramfs.heap.calls := by
  have hleaf : links v v.ramfs.heap.calls = [] := by
    rw [links, hr.leaf _ le_rfl]
    rfl
  rw [h.links_eq hr hc hx, walk_link hleaf hc.ne']
  cases walk (links v) root ns with
  | some i => exact .inl rfl
  | none =>
    split
    · exact .inr ⟨rfl, rfl⟩
    · exact .inl rfl

lemma NewNode.walk_eq (hr : Rooted v root) {cs : List CString}
    (hw : walk (links v) root cs = some current) (hx : x.children = [])
    (habsent : target (links v current) x.name.val = none) (ns : List CString) :
    walk (links w) root ns =
      if ns = cs ++ [x.name.val] then some v.ramfs.heap.calls else walk (links v) root ns := by
  have hc := hr.walk_lt hw
  have hleaf : links v v.ramfs.heap.calls = [] := by
    rw [links, hr.leaf _ le_rfl]
    rfl
  rw [h.links_eq hr hc hx, hr.tree.walk_link_eq hleaf hc.ne' hw habsent]

lemma NewNode.rooted (hr : Rooted v root) (hc : current < v.ramfs.heap.calls)
    (hx : x.children = []) : Rooted w root where
  tree := by
    rw [h.links_eq hr hc hx]
    refine hr.tree.link (fun i m hm => ?_) hr.root_lt.ne'
    exact absurd (hr.child_lt i _ (mem_links.mp hm).1) (lt_irrefl _)
  root_lt := by
    rw [h.calls]
    exact hr.root_lt.trans (Nat.lt_succ_self _)
  child_lt i c hci := by
    rw [h.calls]
    by_cases hi : i = v.ramfs.heap.calls
    · rw [hi, h.self, hx] at hci
      cases hci
    · by_cases hic : i = current
      · rw [hic, h.parent, List.mem_append, List.mem_singleton] at hci
        rcases hci with hci | rfl
        · exact (hr.child_lt _ c hci).trans (Nat.lt_succ_self _)
        · exact Nat.lt_succ_self _
      · rw [h.other i hi hic] at hci
        exact (hr.child_lt i c hci).trans (Nat.lt_succ_self _)
  leaf i hi := by
    rw [h.calls] at hi
    rw [h.other i (by omega) (by omega)]
    exact hr.leaf i (by omega)
  root_dir := by
    obtain ⟨cs, hcs⟩ := h.keeps hr.root_lt.ne
    rw [hcs]
    exact hr.root_dir

end NewNode

def failedMalloc (v : Vfs) : Vfs :=
  { v with ramfs := { v.ramfs with heap := { v.ramfs.heap with calls := v.ramfs.heap.calls + 1 } } }

lemma mallocNode_cases (v : Vfs) :
    (v.ramfs.heap.outcome v.ramfs.heap.calls = none ∧ mallocNode v = (none, v.failedMalloc)) ∨
      ∃ fsFd w, v.ramfs.heap.outcome v.ramfs.heap.calls ≠ none ∧
        mallocNode v = (some (v.ramfs.heap.calls, fsFd), w) ∧
        ∀ (x : VfsNode) (current : ℕ), current < v.ramfs.heap.calls →
          NewNode v ((w.setNode v.ramfs.heap.calls x).addChild current v.ramfs.heap.calls) current x := by
  unfold mallocNode
  rcases v.ramfs.heap.malloc_cases vfsNodeSize with ⟨hout, hm⟩ | ⟨bytes, hout, hm⟩
  · rw [hm]
    exact .inl ⟨hout, rfl⟩
  · rw [hm]
    refine .inr ⟨_, _, by rw [hout]; simp, rfl, fun x current hc => ?_⟩
    exact ⟨by simp [addChild, setNode, hc.ne'], by simp [addChild, setNode, hc.ne],
      fun i hi hic => by simp [addChild, setNode, hi, hic], rfl, rfl, rfl, rfl, rfl, rfl, _, rfl⟩

end Veni.Filesystem.Vfs
