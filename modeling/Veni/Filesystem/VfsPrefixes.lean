import Veni.Filesystem.VfsCreateLog
import Veni.Filesystem.VfsDirectories

/-! The prefixes of the path that the loop of `vfs_create` passes to `ops.mkdir`. -/

namespace Veni.Filesystem.Vfs

open Veni.Libc Veni.Lib Veni.Lib.Tokens Veni.Lib.NameGraph Logged
open Bytes hiding strtok

section Paths

variable {m : Bytes} {s t : CString} {cs : List CString}

lemma putIf_eq (hm : Sized 256 m) (hs : StringAt m 0 s) (hle : s.length + t.length < 256) :
    ∃ m', putIf (decide (s.length + t.length < 256)) m s.length t = ⟨[.guard true], some m'⟩ ∧
      Sized 256 m' ∧ StringAt m' 0 (s ++ t) := by
  obtain ⟨m', hput, hm', hst⟩ := put_string hm hs hle
  refine ⟨m', ?_, hm', hst⟩
  simp [putIf, hle, hput]

lemma putSlash_eq (hm : Sized 256 m) (hs : StringAt m 0 s) (hle : s.length + 1 < 256) :
    ∃ m', putSlash m s.length = ⟨[.guard true], some m'⟩ ∧ Sized 256 m' ∧
      StringAt m' 0 (s ++ [slash]) :=
  putIf_eq (t := [slash]) hm hs hle

lemma putToken_eq (hm : Sized 256 m) (hs : StringAt m 0 s) (hle : s.length + t.length < 256) :
    ∃ m', putToken m s.length t = ⟨[.guard true], some m'⟩ ∧ Sized 256 m' ∧ StringAt m' 0 (s ++ t) :=
  putIf_eq hm hs hle

lemma putToken_zero (hm : Sized 256 m) (hle : t.length < 256) :
    ∃ m', putToken m 0 t = ⟨[.guard true], some m'⟩ ∧ Sized 256 m' ∧ StringAt m' 0 t := by
  have hfit : 0 + (terminated t).length ≤ 256 := by
    rw [length_terminated]
    omega
  obtain ⟨m', hput, hm', _⟩ := put_eq hm hfit
  refine ⟨m', ?_, hm', stringAt_put hm hfit hput⟩
  simp [putToken, putIf, hle, hput]

def Held (es : List Event) : Prop := ∀ e ∈ es, e = .guard true

lemma lt_addresses {k : ℕ} (h : k < 256) : k < addresses :=
  Nat.lt_trans h (by decide)

lemma length_join_ne_zero (hw : ∀ c ∈ cs, IsWord isSlash c) (hcs : cs ≠ []) : (join slash cs).length ≠ 0 := by
  rw [Ne, List.length_eq_zero_iff]
  exact fun hnil => hcs ((join_eq_nil isSlash hw).mp hnil)

variable (hs : StringAt m 0 (join slash cs)) (hlen : (join slash (cs ++ [t])).length ≤ 255)
include hs hlen

lemma putBoth_eq (hcs : cs ≠ []) (hm : Sized 256 m) :
    (join slash cs).length + 1 < 256 ∧ ∃ m₂ m₃,
      putSlash m (join slash cs).length = ⟨[.guard true], some m₂⟩ ∧ strlen m₂ 0 = some ((join slash cs).length + 1) ∧
      putToken m₂ ((join slash cs).length + 1) t = ⟨[.guard true], some m₃⟩ ∧ Sized 256 m₃ ∧
      StringAt m₃ 0 (join slash (cs ++ [t])) := by
  rw [join_concat slash hcs, List.length_append, List.length_cons] at hlen
  have hroom : (join slash cs).length + 1 < 256 := by omega
  obtain ⟨m₂, hslash, hm₂, hs₂⟩ := putSlash_eq hm hs hroom
  have hlen₂ : (join slash cs ++ [slash]).length = (join slash cs).length + 1 := by simp
  have hstrlen := strlen_eq hs₂ (lt_addresses (hlen₂ ▸ hroom))
  obtain ⟨m₃, htoken, hm₃, hs₃⟩ := putToken_eq (t := t) hm₂ hs₂ (by omega)
  rw [hlen₂] at htoken hstrlen
  rw [List.append_assoc, List.singleton_append, ← join_concat slash hcs] at hs₃
  exact ⟨hroom, m₂, m₃, hslash, hstrlen, htoken, hm₃, hs₃⟩

variable (hw : ∀ c ∈ cs, IsWord isSlash c)
include hw

lemma buildPath_eq {mkdirPath : Bytes} (hm : Sized 256 mkdirPath) :
    ∃ es m', buildPath m mkdirPath t = ⟨es, some m'⟩ ∧ Held es ∧
      StringAt m' 0 (join slash (cs ++ [t])) := by
  have hle := (length_join_le_append slash cs [t]).trans hlen
  have hstrlen := strlen_eq hs (lt_addresses (Nat.lt_succ_of_le hle))
  by_cases hcs : cs = []
  · subst hcs
    rw [List.nil_append, join_singleton] at hlen ⊢
    obtain ⟨m', htoken, _, hm'⟩ := putToken_zero hm (Nat.lt_succ_of_le hlen)
    refine ⟨[.guard true], m', ?_, ?_, hm'⟩
    · simp [buildPath, hstrlen, htoken]
    · simp [Held]
  · have hcopy : strcpy m addresses mkdirPath 0 0 = put mkdirPath 0 (terminated (join slash cs)) :=
      strcpy_eq hs (lt_addresses (Nat.lt_succ_of_le hle))
    have hfit : 0 + (terminated (join slash cs)).length ≤ 256 := by
      rw [length_terminated]
      omega
    obtain ⟨m₁, hput, hm₁, _⟩ := put_eq hm hfit
    have hs₁ := stringAt_put hm hfit hput
    have hstrlen₁ := strlen_eq hs₁ (lt_addresses (Nat.lt_succ_of_le hle))
    obtain ⟨hroom, m₂, m₃, hslash, _, htoken, _, hs₃⟩ := putBoth_eq hs₁ hlen hcs hm₁
    have hpos := Nat.pos_of_ne_zero (length_join_ne_zero hw hcs)
    refine ⟨[.guard true, .guard true], m₃, ?_, ?_, hs₃⟩
    · simp [buildPath, hstrlen, hpos, hcopy, hput, hstrlen₁, hslash, hroom, htoken]
    · simp [Held]

lemma extendPath_eq (hm : Sized 256 m) :
    ∃ es m', extendPath m t = ⟨es, some m'⟩ ∧ Held es ∧ Sized 256 m' ∧
      StringAt m' 0 (join slash (cs ++ [t])) := by
  have hle := (length_join_le_append slash cs [t]).trans hlen
  have hstrlen := strlen_eq hs (lt_addresses (Nat.lt_succ_of_le hle))
  by_cases hcs : cs = []
  · subst hcs
    rw [List.nil_append, join_singleton] at hlen ⊢
    obtain ⟨m', htoken, hsize, hm'⟩ := putToken_zero hm (Nat.lt_succ_of_le hlen)
    refine ⟨[.guard true], m', ?_, ?_, hsize, hm'⟩
    · simp [extendPath, hstrlen, htoken]
    · simp [Held]
  · obtain ⟨_, m₂, m₃, hslash, hstrlen₂, htoken, hm₃, hs₃⟩ := putBoth_eq hs hlen hcs hm
    have hpos := Nat.pos_of_ne_zero (length_join_ne_zero hw hcs)
    refine ⟨[.guard true, .guard true], m₃, ?_, ?_, hm₃, hs₃⟩
    · simp [extendPath, hstrlen, hpos, hslash, hstrlen₂, htoken]
    · simp [Held]

end Paths

section Turn

variable {cur : Bytes} {cs : List CString} {t : CString} {q : CBuffer 256}
  (hq : q.val = join slash cs) (hs : StringAt cur 0 (join slash cs))
  (hw : ∀ c ∈ cs, IsWord isSlash c) (hlen : (join slash (cs ++ [t])).length ≤ 255)
include hq hs hw hlen

lemma makeDir_eq (stack : ℕ → UInt8) (v : Vfs) (mount : VfsMount) (node k : ℕ) :
    ∃ es mk, Held es ∧ StringAt mk 0 (join slash (cs ++ [t])) ∧
      makeDir stack k v mount node cur t =
        match createDir v mount node q t with
        | (none, w) => ⟨es ++ [.mkdir k cur mk], some (none, w)⟩
        | (some child, w) => ⟨es ++ [.mkdir k cur mk, .name (some t)], some (some child, w)⟩ := by
  obtain ⟨es, mk, hbuild, hes, hmk⟩ := buildPath_eq hs hlen hw (sized_array 256 stack)
  have hdir := stringFrom_eq hmk (lt_addresses (Nat.lt_succ_of_le hlen))
  refine ⟨es, mk, hes, hmk, ?_⟩
  have hcreate : createDirAt v mount node (join slash (cs ++ [t])) t = createDir v mount node q t := by
    rw [← appendPath_join hq hw hlen]
    rfl
  simp only [makeDir, hbuild, hdir, mk_bind, tell_bind, lift_some, hcreate]
  cases createDir v mount node q t with
  | mk child w =>
    cases child with
    | none => simp
    | some child => simp

lemma prefixLoop_turn (again : Option Cursor → Option (Option CString × Option Cursor))
    (stack : ℕ → ℕ → UInt8) (v : Vfs) (mount : VfsMount) (node k n : ℕ) (hsize : Sized 256 cur) :
    ∃ es fs mk cur', Held es ∧ Held fs ∧ StringAt mk 0 (join slash (cs ++ [t])) ∧ Sized 256 cur' ∧
      StringAt cur' 0 (join slash (cs ++ [t])) ∧
      prefixLoop again stack mount (n + 1) k v node cur t =
        match again v.ramfs.strtokNext with
        | none => ⟨[], none⟩
        | some (none, next) => ⟨[], some (some (node, t), v.setCursor next)⟩
        | some (some u, next) =>
          match findChild v.nodes node t with
          | some child =>
            (prefixLoop again stack mount n (k + 1) (v.setCursor next) child cur' u).after
              (.findChild (some t) :: fs)
          | none =>
            match createDir (v.setCursor next) mount node q t with
            | (none, w) => ⟨.findChild (some t) :: (es ++ [.mkdir k cur mk]), some (none, w)⟩
            | (some child, w) =>
              (prefixLoop again stack mount n (k + 1) w child cur' u).after
                (.findChild (some t) :: (es ++ [.mkdir k cur mk, .name (some t)] ++ fs)) := by
  obtain ⟨fs, cur', hextend, hfs, hsize', hcur'⟩ := extendPath_eq hs hlen hw hsize
  cases hnext : again v.ramfs.strtokNext with
  | none =>
    obtain ⟨es, mk, hes, hmk, _⟩ := makeDir_eq hq hs hw hlen (stack k) v mount node k
    exact ⟨es, fs, mk, cur', hes, hfs, hmk, hsize', hcur', by simp [prefixLoop, hnext]⟩
  | some r =>
    obtain ⟨token, next⟩ := r
    obtain ⟨es, mk, hes, hmk, hdir⟩ :=
      makeDir_eq hq hs hw hlen (stack k) (v.setCursor next) mount node k
    refine ⟨es, fs, mk, cur', hes, hfs, hmk, hsize', hcur', ?_⟩
    cases token with
    | none => simp [prefixLoop, hnext]
    | some u =>
      have hnodes : (v.setCursor next).nodes = v.nodes := rfl
      simp only [prefixLoop, hnext, lift_some, mk_bind, tell_bind, after_nil, hnodes]
      cases findChild v.nodes node t with
      | some child => simp [hextend]
      | none =>
        simp only [hdir]
        cases createDir (v.setCursor next) mount node q t with
        | mk child w =>
          cases child with
          | none => simp
          | some child => simp [hextend]

end Turn

/-- The tokens are components before the last one, the guards hold, and `ops.mkdir` is called in the
`k`-th iteration with the first `k` components while `current_path` holds the first `k - 1`. -/
def PrefixEvent (ts : List CString) : Event → Prop
  | .findChild token | .name token => ∃ c ∈ ts.dropLast, token = some c
  | .guard holds => holds = true
  | .mkdir k currentPath mkdirPath =>
    0 < k ∧ k < ts.length ∧ StringAt currentPath 0 (join slash (ts.take (k - 1))) ∧
      StringAt mkdirPath 0 (join slash (ts.take k))

structure Continues (again : Option Cursor → Option (Option CString × Option Cursor)) : Prop where
  own : ∀ rest, again (some ⟨.vfsCreate, rest⟩) = some (strtok .vfsCreate rest)
  other : ∀ c : Cursor, c.buffer ≠ .vfsCreate → ∀ token next,
    again (some c) = some (token, next) → token = none

def PointsTo (next : Option Cursor) (us : List CString) : Prop :=
  ∃ c : Cursor, next = some c ∧ (c.buffer = .vfsCreate → tokens isSlash c.rest = us)

section Events

variable {v : Vfs} {us : List CString}
  {again : Option Cursor → Option (Option CString × Option Cursor)}

lemma continues_strtokNull : Continues (strtokNull .vfsCreate) where
  own := strtokNull_own
  other c hc token next h := by
    rw [show c = ⟨c.buffer, c.rest⟩ from rfl, strtokNull_dead c.buffer hc] at h
    split at h
    · cases h
      rfl
    · cases h

lemma PointsTo.next {next : Option Cursor} (h : PointsTo next us) (hc : Continues again) :
    again next = none ∨ (∃ next', again next = some (none, next')) ∨
      ∃ u us' next', us = u :: us' ∧ again next = some (some u, next') ∧ PointsTo next' us' := by
  obtain ⟨c, rfl, hrest⟩ := h
  by_cases hb : c.buffer = .vfsCreate
  · have heq : c = ⟨.vfsCreate, c.rest⟩ := by rw [← hb]
    have hown := hc.own c.rest
    rw [← heq] at hown
    cases hus : us with
    | nil =>
      rw [strtok, tokenStep_of_nil ((hrest hb).trans hus)] at hown
      exact Or.inr (Or.inl ⟨_, hown⟩)
    | cons u us' =>
      obtain ⟨rest', hstep, hrest'⟩ := tokenStep_of_cons ((hrest hb).trans hus)
      rw [strtok, hstep] at hown
      exact Or.inr (Or.inr ⟨u, us', _, rfl, hown, _, rfl, fun _ => hrest'⟩)
  · cases hnext : again (some c) with
    | none => exact Or.inl rfl
    | some r =>
      obtain ⟨token, next'⟩ := r
      cases hc.other c hb token next' hnext
      exact Or.inr (Or.inl ⟨next', rfl⟩)

lemma PointsTo.createDir (h : PointsTo v.ramfs.strtokNext us) (mount : VfsMount) (node : ℕ) (path : CBuffer 256)
    (t : CString) : PointsTo (createDir v mount node path t).2.ramfs.strtokNext us := by
  rw [createDir_cursor, mkdir_cursor]
  unfold Ramfs.ramfsFindInode
  split
  · exact h
  · exact ⟨_, rfl, fun hb => by cases hb⟩

lemma mem_log_after {α : Type} {es : List Event} {x : Log α} {Q : Event → Prop} (hes : ∀ e ∈ es, Q e)
    (hx : ∀ e ∈ x.log, Q e) : ∀ e ∈ (x.after es).log, Q e := by
  intro e he
  rcases List.mem_append.mp he with he | he
  · exact hes e he
  · exact hx e he

lemma prefixEvents_of_turn {ts cs : List CString} {t u : CString} (hts : ts = cs ++ t :: u :: us)
    {es fs : List Event} (hes : Held es) (hfs : Held fs) {cur mk : Bytes}
    (hcur : StringAt cur 0 (join slash cs)) (hmk : StringAt mk 0 (join slash (cs ++ [t]))) :
    (∀ e ∈ Event.findChild (some t) :: fs, PrefixEvent ts e) ∧
      (∀ e ∈ Event.findChild (some t) :: (es ++ [.mkdir (cs.length + 1) cur mk]), PrefixEvent ts e) ∧
      ∀ e ∈ Event.findChild (some t) :: (es ++ [.mkdir (cs.length + 1) cur mk, .name (some t)] ++ fs),
        PrefixEvent ts e := by
  have hmem : t ∈ ts.dropLast := by
    rw [hts, List.dropLast_append_cons, List.dropLast_cons_cons]
    simp
  have htoken : PrefixEvent ts (.findChild (some t)) := ⟨t, hmem, rfl⟩
  have hname : PrefixEvent ts (.name (some t)) := ⟨t, hmem, rfl⟩
  have hheld : ∀ {gs}, Held gs → ∀ e ∈ gs, PrefixEvent ts e := by
    intro gs hgs e he
    rw [hgs e he]
    exact rfl
  have hmkdir : PrefixEvent ts (.mkdir (cs.length + 1) cur mk) := by
    have htake : ts.take (cs.length + 1) = cs ++ [t] := by
      rw [hts, List.append_cons]
      exact List.take_left' (by simp)
    refine ⟨Nat.succ_pos _, ?_, ?_, ?_⟩
    · rw [hts, List.length_append, List.length_cons, List.length_cons]
      omega
    · rw [Nat.add_sub_cancel, hts, List.take_left]
      exact hcur
    · rw [htake]
      exact hmk
  have hes := hheld hes
  have hfs := hheld hfs
  refine ⟨?_, ?_, ?_⟩
  · exact List.forall_mem_cons.mpr ⟨htoken, hfs⟩
  · rw [List.forall_mem_cons, List.forall_mem_append]
    exact ⟨htoken, hes, by simpa using hmkdir⟩
  · rw [List.forall_mem_cons, List.forall_mem_append, List.forall_mem_append]
    exact ⟨htoken, ⟨hes, by simpa using ⟨hmkdir, hname⟩⟩, hfs⟩

structure InOrder {α : Type} (again : Option Cursor → Option (Option CString × Option Cursor))
    (ts : List CString) (x : Log α) (y : Option α) : Prop where
  log : ∀ e ∈ x.log, PrefixEvent ts e
  total : (∀ c, again (some c) ≠ none) → x.result ≠ none
  same : again = strtokNull .vfsCreate → x.result = y

lemma InOrder.after {α : Type} {ts : List CString} {x : Log α} {y : Option α} (h : InOrder again ts x y)
    {es : List Event} (hes : ∀ e ∈ es, PrefixEvent ts e) : InOrder again ts (x.after es) y :=
  ⟨mem_log_after hes h.log, h.total, h.same⟩

lemma inOrder_some {α : Type} {ts : List CString} {es : List Event} (hes : ∀ e ∈ es, PrefixEvent ts e) (a : α) :
    InOrder again ts ⟨es, some a⟩ (some a) :=
  ⟨hes, fun _ => Option.some_ne_none a, fun _ => rfl⟩

lemma InOrder.congr {α : Type} {ts : List CString} {x : Log α} {y z : Option α} (h : InOrder again ts x y)
    (hz : again = strtokNull .vfsCreate → z = y) : InOrder again ts x z :=
  ⟨h.log, h.total, fun heq => (h.same heq).trans (hz heq).symm⟩

lemma prefixLoop_events (mount : VfsMount) (node : ℕ) (hagain : Continues again) (stack : ℕ → ℕ → UInt8)
    {ts cs : List CString} (hwords : ∀ c ∈ ts, IsWord isSlash c) (hlen : (join slash ts).length ≤ 255)
    {t : CString} (hts : ts = cs ++ t :: us) {n : ℕ} {cur : Bytes} {q : CBuffer 256}
    (hq : q.val = join slash cs) (hsize : Sized 256 cur) (hcur : StringAt cur 0 (join slash cs))
    (hpoints : PointsTo v.ramfs.strtokNext us) (hn : us.length < n) :
    InOrder again ts (prefixLoop again stack mount n (cs.length + 1) v node cur t)
      (createLoop mount n v node q t) := by
  induction n generalizing us cs t v node cur q with
  | zero => exact absurd hn (Nat.not_lt_zero _)
  | succ n ih =>
    have hsplit : ts = (cs ++ [t]) ++ us := by rw [hts]; simp
    have hlent : (join slash (cs ++ [t])).length ≤ 255 :=
      (length_join_le_append slash (cs ++ [t]) us).trans (hsplit ▸ hlen)
    have hwcs : ∀ c ∈ cs, IsWord isSlash c := fun c hc => hwords c (by rw [hts]; simp [hc])
    have happend := appendPath_join hq hwcs hlent
    obtain ⟨es, fs, mk, cur', hes, hfs, hmk, hsize', hcur', hturn⟩ :=
      prefixLoop_turn hq hcur hwcs hlent again stack v mount node (cs.length + 1) n hsize
    rw [hturn]
    have hnext := hpoints
    rcases hnext.next hagain with hfault | ⟨next, hdone⟩ | ⟨u, us', next, rfl, hmore, hpoints'⟩
    · obtain ⟨c, hc, _⟩ := hpoints
      rw [hfault]
      refine ⟨by simp, fun htotal => ?_, fun heq => ?_⟩
      · rw [hc] at hfault
        exact absurd hfault (htotal c)
      · subst heq
        rw [createLoop_lost hfault rfl]
    · rw [hdone]
      apply (inOrder_some (by simp) _).congr
      rintro rfl
      exact createLoop_end hdone rfl
    · obtain ⟨hfound, hfailed, hmade⟩ := prefixEvents_of_turn hts hes hfs hcur hmk
      have hlen' : (cs ++ [t]).length = cs.length + 1 := by simp
      have hn' : us'.length < n := by
        rw [List.length_cons] at hn
        omega
      rw [hmore]
      simp only
      cases hfind : findChild v.nodes node t with
      | some child =>
        have hrest := ih (v := v.setCursor next) child hsplit happend hsize' hcur' hpoints' hn'
        rw [hlen'] at hrest
        apply (hrest.after hfound).congr
        rintro rfl
        simp only [createLoop, hmore, hfind]
      | none =>
        have hcreate := PointsTo.createDir (v := v.setCursor next) hpoints' mount node q t
        cases hdir : Vfs.createDir (v.setCursor next) mount node q t with
        | mk child w =>
          rw [hdir] at hcreate
          cases child with
          | none =>
            apply (inOrder_some hfailed _).congr
            rintro rfl
            simp only [createLoop, hmore, hfind, hdir]
          | some child =>
            have hrest := ih (v := w) child hsplit happend hsize' hcur' hcreate hn'
            rw [hlen'] at hrest
            apply (hrest.after hmade).congr
            rintro rfl
            simp only [createLoop, hmore, hfind, hdir]

end Events

/-- `strtok(NULL, "/")` that returns `NULL` once another string has been tokenised. -/
def strtokLost (next : Option Cursor) : Option (Option CString × Option Cursor) :=
  match next with
  | none => some (none, none)
  | some c => if c.buffer = .vfsCreate then some (strtok .vfsCreate c.rest) else some (none, some c)

lemma continues_strtokLost : Continues strtokLost where
  own rest := by simp [strtokLost]
  other c hc token next h := by
    simp only [strtokLost, if_neg hc, Option.some.injEq, Prod.mk.injEq] at h
    exact h.1.symm

lemma createPrefixes_events {again : Option Cursor → Option (Option CString × Option Cursor)}
    (hagain : Continues again) (stack : ℕ → ℕ → UInt8) (v : Vfs) (mount : VfsMount) (rel : CString) :
    (∀ e ∈ (createPrefixes again stack v mount rel).log, PrefixEvent (Ramfs.components rel) e) ∧
      ((∀ c, again (some c) ≠ none) → (createPrefixes again stack v mount rel).result ≠ none) ∧
      (again = strtokNull .vfsCreate → (createPrefixes again stack v mount rel).result =
        match strtok .vfsCreate (strncpy 255 rel).val with
        | (none, next) => some (some (mount.node, none), v.setCursor next)
        | (some token, next) =>
          (createLoop mount 256 (v.setCursor next) mount.node ⟨[], by decide⟩ token).map fun r =>
            (r.1.map fun stop => (stop.1, some stop.2), r.2)) := by
  have hcount : (Ramfs.components rel).length ≤ 255 :=
    (length_tokens_le isSlash (rel.take 255)).trans (List.length_take_le 255 rel)
  cases hts : tokens isSlash (strncpy 255 rel).val with
  | nil => simp [createPrefixes, strtok, tokenStep_of_nil hts]
  | cons t us =>
    obtain ⟨rest, hstep, hrest⟩ := tokenStep_of_cons hts
    have hts : Ramfs.components rel = [] ++ t :: us := hts
    have hn : us.length < 256 := by
      rw [hts, List.nil_append, List.length_cons] at hcount
      omega
    have hzero : StringAt (array 256 fun _ => 0) 0 (join slash []) := rfl
    have hpoints : PointsTo (v.setCursor (some ⟨.vfsCreate, rest⟩)).ramfs.strtokNext us :=
      ⟨_, rfl, fun _ => hrest⟩
    obtain ⟨hlog, hresult, hsame⟩ := prefixLoop_events (q := ⟨[], by decide⟩) mount mount.node hagain
      stack (fun _ => components_word) (components_length rel) hts rfl (sized_array 256 fun _ => 0) hzero
      hpoints hn
    simp only [List.length_nil, Nat.zero_add] at hlog hresult hsame
    simp only [createPrefixes, strtok, hstep]
    refine ⟨?_, fun htotal => ?_, fun heq => ?_⟩
    · rw [log_bind_of_nil]
      · exact hlog
      · rintro ⟨stop, w⟩
        rfl
    · rw [result_bind]
      obtain ⟨r, hr⟩ := Option.ne_none_iff_exists'.mp (hresult htotal)
      rw [hr]
      exact Option.some_ne_none _
    · rw [result_bind, hsame heq]
      cases createLoop mount 256 _ mount.node ⟨[], by decide⟩ t with
      | none => rfl
      | some r => rfl

/-- In the loop of `vfs_create` every call of `ops.mkdir` has the first `k` components of the relative
path, joined with single slashes, no byte is written outside the two arrays, and every length guard
holds. -/
theorem mkdir_prefixes (stack : ℕ → ℕ → UInt8) (v : Vfs) (mount : VfsMount) (path : CString) :
    (∀ e ∈ (createPrefixes strtokLost stack v mount (relPath mount path)).log,
        PrefixEvent (Ramfs.components (relPath mount path)) e) ∧
      (createPrefixes strtokLost stack v mount (relPath mount path)).result ≠ none := by
  obtain ⟨hlog, hresult, _⟩ := createPrefixes_events continues_strtokLost stack v mount (relPath mount path)
  refine ⟨hlog, hresult fun c => ?_⟩
  simp only [strtokLost]
  split <;> simp

end Veni.Filesystem.Vfs
