import Veni.Filesystem.RamfsEntries

/-! The operations on bytes return what those on strings return, whatever the callers write to their own
memory between two calls. -/

namespace Veni.Filesystem

open Veni.Libc Veni.Libc.Bytes

inductive DirOp
  | create
  | mkdir
  | unlink
  | rmdir

def inodeCode (idx : Option ℕ) : ℤ := idx.elim (-1) Int.ofNat

def statusCode (done : Bool) : ℤ := if done then 0 else -1

namespace Ramfs

def callDir (r : Ramfs) (path : CString) : DirOp → ℤ × Ramfs
  | .create => ((r.ramfsCreate path).map inodeCode id)
  | .mkdir => ((r.ramfsMkdir path).map statusCode id)
  | .unlink => ((r.ramfsUnlink path).map statusCode id)
  | .rmdir => ((r.ramfsRmdir path).map statusCode id)

def callDirs (r : Ramfs) : List (DirOp × CString) → List ℤ × Ramfs
  | [] => ([], r)
  | (op, path) :: calls =>
    let called := r.callDir path op
    let rest := called.2.callDirs calls
    (called.1 :: rest.1, rest.2)

def blank (heap : Malloc) : Ramfs := ⟨fun _ => { emptyInode .file with used := false }, heap, none⟩

def enter (r : Ramfs) (parentIdx : ℕ) (basename : CString) (type : InodeType) : Option ℕ × Ramfs :=
  match r.allocInode with
  | none => (none, r)
  | some (idx, r) =>
    let r := r.setInode idx { r.inodes idx with type := type }
    match r.addEntry parentIdx basename idx with
    | none => (none, r)
    | some r => (some idx, r)

end Ramfs

namespace RamfsBytes

def callDir (l : Layout) (b : RamfsBytes) (path : ℕ) : DirOp → Option (ℤ × RamfsBytes)
  | .create => (ramfsCreate l b path).map (Prod.map inodeCode id)
  | .mkdir => (ramfsMkdir l b path).map (Prod.map statusCode id)
  | .unlink => (ramfsUnlink l b path).map (Prod.map statusCode id)
  | .rmdir => (ramfsRmdir l b path).map (Prod.map statusCode id)

def blank (heap : Malloc) (strtok : Strtok) : RamfsBytes :=
  ⟨fun _ => ⟨.file, none, 0, 0, fun _ => 0, 0, false⟩, heap, strtok⟩

def ramfsInit (b : RamfsBytes) : RamfsBytes :=
  { b with
    inodes := fun i =>
      if i = 0 then ⟨.dir, none, 0, 0, (b.inodes i).inodeIdx, 0, true⟩
      else { b.inodes i with used := false } }

variable {l : Layout} {b : RamfsBytes} {r : Ramfs} {m : Bytes} {s w : CString} {p token path : ℕ}

lemma findEntry_stands (h : Stands l b r) (hp : p < ramfsMaxFiles) (hw : StringAt b.strtok.memory token w) :
    (findEntry l b p token = some none ∧ Ramfs.findEntry (r.inodes p).entries w = none) ∨
    ∃ k e, findEntry l b p token = some (some k) ∧ Ramfs.findEntry (r.inodes p).entries w = some e ∧
      (r.inodes p).entries.findIdx? (fun e => decide (e.name.val = w)) = some k ∧
      (b.inodes p).inodeIdx k = e.inodeIdx ∧ e.inodeIdx < ramfsMaxFiles := by
  have hsearch := search_stands (h.names p hp) hw
  rw [findEntry, hsearch, findEntry_eq]
  cases hfind : (r.inodes p).entries.findIdx? fun e => decide (e.name.val = w) with
  | none => exact Or.inl ⟨rfl, rfl⟩
  | some k =>
    obtain ⟨hk, _⟩ := List.findIdx?_eq_some_iff_getElem.mp hfind
    have hentry := List.getElem?_eq_getElem hk
    obtain ⟨hidx, hlt, _⟩ := (h.names p hp).entry k _ hentry
    exact Or.inr ⟨k, (r.inodes p).entries[k], rfl, hentry, rfl, hidx, hlt⟩

lemma newEntry_eq (type : InodeType) (h : Stands l b r) (hp : p < ramfsMaxFiles)
    (hw : StringAt b.strtok.memory token w) (hin : l.temp ≤ token ∧ token + w.length < l.temp + 256) :
    ∃ b', newEntry l b p token type = some ((r.enter p w type).1, b') ∧ Stands l b' (r.enter p w type).2 ∧
      l.Kept b.strtok.memory b'.strtok.memory := by
  obtain ⟨hr, hb⟩ | ⟨idx, hidx, inodeIdx, hr, hb⟩ := allocInode_eq h
  · refine ⟨b, ?_, ?_, fun _ _ _ _ => rfl⟩
    · rw [newEntry, Ramfs.enter, hr, hb]
    · rw [Ramfs.enter, hr]
      exact h
  · have hnew : Stands l (b.setInode idx ⟨.file, none, 0, 0, inodeIdx, 0, true⟩)
        (r.setInode idx (Ramfs.emptyInode .file)) := h.setInode fun _ => stands_empty
    have htyped := hnew.setInode (i := idx) (x := ⟨type, none, 0, 0, inodeIdx, 0, true⟩)
      (y := Ramfs.emptyInode type) fun _ => stands_empty
    have hbyte : (b.setInode idx ⟨.file, none, 0, 0, inodeIdx, 0, true⟩).inodes idx =
        ⟨.file, none, 0, 0, inodeIdx, 0, true⟩ := Function.update_self ..
    have hinode : (r.setInode idx (Ramfs.emptyInode .file)).inodes idx = Ramfs.emptyInode .file :=
      Function.update_self ..
    have hempty : { Ramfs.emptyInode .file with type := type } = Ramfs.emptyInode type := rfl
    obtain ⟨hfull, hfull'⟩ | ⟨b', r', hadd, hadd', hstands, hkept⟩ := addEntry_eq htyped hp hidx hw hin
    · have henter : r.enter p w type =
          (none, (r.setInode idx (Ramfs.emptyInode .file)).setInode idx (Ramfs.emptyInode type)) := by
        simp only [Ramfs.enter, hr, hinode, hempty, hfull]
      rw [henter]
      exact ⟨_, by simp only [newEntry, hb, hbyte, hfull', Option.map_some], htyped, fun _ _ _ _ => rfl⟩
    · have henter : r.enter p w type = (some idx, r') := by
        simp only [Ramfs.enter, hr, hinode, hempty, hadd]
      rw [henter]
      exact ⟨b', by simp only [newEntry, hb, hbyte, hadd', Option.map_some], hstands, hkept⟩

lemma allocInode_file {idx : ℕ} {r' : Ramfs} (h : r.allocInode = some (idx, r')) :
    r'.setInode idx { r'.inodes idx with type := .file } = r' := by
  rw [Ramfs.allocInode, Option.map_eq_some_iff] at h
  obtain ⟨i, _, hi⟩ := h
  cases hi
  simp only [Ramfs.setInode, Function.update_self, Function.update_idem]
  rfl

/-- What is given to an operation: a path in the caller's memory. -/
structure Passed (l : Layout) (m : Bytes) (path : ℕ) (s : CString) : Prop where
  string : StringAt m path s
  ne : path ≠ 0
  temp : Apart l.temp 256 path (s.length + 1)
  inner : Apart l.inner 256 path (s.length + 1)

lemma ramfsCreate_eq (h : Stands l b r) (hs : Passed l b.strtok.memory path s) :
    ∃ b', ramfsCreate l b path = some ((r.ramfsCreate s).1, b') ∧ Stands l b' (r.ramfsCreate s).2 ∧
      l.Kept b.strtok.memory b'.strtok.memory := by
  obtain ⟨found, r₁, token, b₁, hfind, hparent, hstands, hw, hinside, hkept, hin⟩ :=
    parentOf_eq h hs.string hs.temp
  cases found with
  | none =>
    refine ⟨b₁, ?_, ?_, hkept⟩
    · simp [ramfsCreate, Ramfs.ramfsCreate, hs.ne, hparent, hfind]
    · simpa [Ramfs.ramfsCreate, hfind] using hstands
  | some parentIdx =>
    have hp := hin parentIdx rfl
    have htype := (hstands.names parentIdx hp).type
    by_cases hdir : (r₁.inodes parentIdx).type = .dir
    · obtain ⟨hnone, hnone'⟩ | ⟨k, e, hsome, hsome', _⟩ := findEntry_stands hstands hp hw
      · obtain ⟨b', hnew, hlast, hkept'⟩ := newEntry_eq .file hstands hp hw hinside
        have hcreate : r.ramfsCreate s = r₁.enter parentIdx (Ramfs.splitPath s).2 .file := by
          simp only [Ramfs.ramfsCreate, hfind, hdir, hnone', Ramfs.enter]
          cases hfree : r₁.allocInode with
          | none => simp
          | some new =>
            cases hadd : new.2.addEntry parentIdx (Ramfs.splitPath s).2 new.1 with
            | none => simp [allocInode_file hfree, hadd]
            | some r' => simp [allocInode_file hfree, hadd]
        rw [hcreate]
        exact ⟨b', by simp [ramfsCreate, hs.ne, hparent, htype, hdir, hnone, hnew], hlast, hkept.trans hkept'⟩
      · refine ⟨b₁, ?_, ?_, hkept⟩
        · simp [ramfsCreate, Ramfs.ramfsCreate, hs.ne, hparent, hfind, htype, hdir, hsome, hsome']
        · simpa [Ramfs.ramfsCreate, hfind, hdir, hsome'] using hstands
    · refine ⟨b₁, ?_, ?_, hkept⟩
      · simp [ramfsCreate, Ramfs.ramfsCreate, hs.ne, hparent, hfind, htype, hdir]
      · simpa [Ramfs.ramfsCreate, hfind, hdir] using hstands

lemma ramfsMkdir_eq (h : Stands l b r) (hs : Passed l b.strtok.memory path s) :
    ∃ b', ramfsMkdir l b path = some ((r.ramfsMkdir s).1, b') ∧ Stands l b' (r.ramfsMkdir s).2 ∧
      l.Kept b.strtok.memory b'.strtok.memory := by
  obtain ⟨found, r₁, token, b₁, hfind, hparent, hstands, hw, hinside, hkept, hin⟩ :=
    parentOf_eq h hs.string hs.temp
  cases found with
  | none =>
    refine ⟨b₁, ?_, ?_, hkept⟩
    · simp [ramfsMkdir, Ramfs.ramfsMkdir, hs.ne, hparent, hfind]
    · simpa [Ramfs.ramfsMkdir, hfind] using hstands
  | some parentIdx =>
    have hp := hin parentIdx rfl
    have htype := (hstands.names parentIdx hp).type
    by_cases hdir : (r₁.inodes parentIdx).type = .dir
    · obtain ⟨hnone, hnone'⟩ | ⟨k, e, hsome, hsome', _⟩ := findEntry_stands hstands hp hw
      · obtain ⟨b', hnew, hlast, hkept'⟩ := newEntry_eq .dir hstands hp hw hinside
        have hmkdir : r.ramfsMkdir s = ((r₁.enter parentIdx (Ramfs.splitPath s).2 .dir).1.isSome,
            (r₁.enter parentIdx (Ramfs.splitPath s).2 .dir).2) := by
          simp only [Ramfs.ramfsMkdir, hfind, hdir, hnone', Ramfs.enter]
          cases hfree : r₁.allocInode with
          | none => simp
          | some new =>
            cases hadd : (new.2.setInode new.1 { new.2.inodes new.1 with type := .dir }).addEntry parentIdx
                (Ramfs.splitPath s).2 new.1 with
            | none => simp [hadd]
            | some r' => simp [hadd]
        rw [hmkdir]
        exact ⟨b', by simp [ramfsMkdir, hs.ne, hparent, htype, hdir, hnone, hnew], hlast, hkept.trans hkept'⟩
      · refine ⟨b₁, ?_, ?_, hkept⟩
        · simp [ramfsMkdir, Ramfs.ramfsMkdir, hs.ne, hparent, hfind, htype, hdir, hsome, hsome']
        · simpa [Ramfs.ramfsMkdir, hfind, hdir, hsome'] using hstands
    · refine ⟨b₁, ?_, ?_, hkept⟩
      · simp [ramfsMkdir, Ramfs.ramfsMkdir, hs.ne, hparent, hfind, htype, hdir]
      · simpa [Ramfs.ramfsMkdir, hfind, hdir] using hstands

lemma setUnused_stands {idx : ℕ} (h : Stands l b r) : Stands l (setUnused b idx) (r.setUnused idx) :=
  h.setInode fun hidx => { h.names idx hidx with used := rfl }

lemma freeData_stands {idx : ℕ} (h : Stands l b r) (hidx : idx < ramfsMaxFiles) :
    Stands l (freeData b idx) (r.freeData idx) := by
  rw [freeData, Ramfs.freeData, (h.names idx hidx).data]
  cases (r.inodes idx).data with
  | none => exact h
  | some p => exact ⟨congrArg (Malloc.free · p) h.heap, h.mapped, h.names⟩

lemma freeData_strtok (b : RamfsBytes) (idx : ℕ) : (freeData b idx).strtok = b.strtok := by
  rw [freeData]
  cases (b.inodes idx).data with
  | none => rfl
  | some p => rfl

lemma ramfsUnlink_eq (h : Stands l b r) (hs : Passed l b.strtok.memory path s) :
    ∃ b', ramfsUnlink l b path = some ((r.ramfsUnlink s).1, b') ∧ Stands l b' (r.ramfsUnlink s).2 ∧
      l.Kept b.strtok.memory b'.strtok.memory := by
  obtain ⟨found, r₁, token, b₁, hfind, hparent, hstands, hw, _, hkept, hin⟩ :=
    parentOf_eq h hs.string hs.temp
  cases found with
  | none =>
    refine ⟨b₁, ?_, ?_, hkept⟩
    · simp [ramfsUnlink, Ramfs.ramfsUnlink, hparent, hfind]
    · simpa [Ramfs.ramfsUnlink, hfind] using hstands
  | some parentIdx =>
    have hp := hin parentIdx rfl
    have htype := (hstands.names parentIdx hp).type
    by_cases hdir : (r₁.inodes parentIdx).type = .dir
    · obtain ⟨hnone, hnone'⟩ | ⟨k, e, hsome, hsome', hk, hidx, hlt⟩ := findEntry_stands hstands hp hw
      · refine ⟨b₁, ?_, ?_, hkept⟩
        · simp [ramfsUnlink, Ramfs.ramfsUnlink, hparent, hfind, htype, hdir, hnone, hnone']
        · simpa [Ramfs.ramfsUnlink, hfind, hdir, hnone'] using hstands
      · obtain ⟨b₂, hremove, hstands₂, hkept₂⟩ := removeEntry_eq hstands hp hk
        refine ⟨setUnused (freeData b₂ e.inodeIdx) e.inodeIdx, ?_, ?_, ?_⟩
        · simp [ramfsUnlink, Ramfs.ramfsUnlink, hparent, hfind, htype, hdir, hsome, hsome', hremove, hidx]
        · simpa [Ramfs.ramfsUnlink, hfind, hdir, hsome'] using
            setUnused_stands (freeData_stands hstands₂ hlt)
        · change l.Kept _ (freeData b₂ e.inodeIdx).strtok.memory
          rw [freeData_strtok]
          exact hkept.trans hkept₂
    · refine ⟨b₁, ?_, ?_, hkept⟩
      · simp [ramfsUnlink, Ramfs.ramfsUnlink, hparent, hfind, htype, hdir]
      · simpa [Ramfs.ramfsUnlink, hfind, hdir] using hstands

lemma ramfsRmdir_empty {idx : ℕ} {b₁ : RamfsBytes} {r₁ : Ramfs} (hstands : Stands l b₁ r₁)
    (hkept : l.Kept b.strtok.memory b₁.strtok.memory)
    (hpath : StringAt b₁.strtok.memory path s) (htemp : Apart l.temp 256 path (s.length + 1))
    (hfound : ramfsFindInode l b path = some (some idx, b₁)) (hfound' : r.ramfsFindInode s = (some idx, r₁))
    (hidx : idx < ramfsMaxFiles) (hdir : (r₁.inodes idx).type = .dir)
    (hempty : (r₁.inodes idx).entries = []) :
    ∃ b', ramfsRmdir l b path = some ((r.ramfsRmdir s).1, b') ∧ Stands l b' (r.ramfsRmdir s).2 ∧
      l.Kept b.strtok.memory b'.strtok.memory := by
  have htype := (hstands.names idx hidx).type
  have hcount := (hstands.names idx hidx).length
  rw [hempty, List.length_nil] at hcount
  obtain ⟨found, r₂, token, b₂, hfind, hparent, hstands₂, hw, _, hkept₂, hin⟩ :=
    parentOf_eq hstands hpath htemp
  cases found with
  | none =>
    refine ⟨b₂, ?_, ?_, hkept.trans hkept₂⟩
    · simp [ramfsRmdir, Ramfs.ramfsRmdir, hfound, hfound', hparent, hfind, htype, hdir, hempty, ← hcount]
    · simpa [Ramfs.ramfsRmdir, hfound', hfind, hdir, hempty] using hstands₂
  | some parentIdx =>
    have hp := hin parentIdx rfl
    obtain ⟨hnone, hnone'⟩ | ⟨k, e, hsome, hsome', hk, _⟩ := findEntry_stands hstands₂ hp hw
    · refine ⟨b₂, ?_, ?_, hkept.trans hkept₂⟩
      · simp [ramfsRmdir, Ramfs.ramfsRmdir, hfound, hfound', hparent, hfind, htype, hdir, hempty, ← hcount,
          hnone, hnone']
      · simpa [Ramfs.ramfsRmdir, hfound', hfind, hdir, hempty, hnone'] using hstands₂
    · obtain ⟨b₃, hremove, hstands₃, hkept₃⟩ := removeEntry_eq hstands₂ hp hk
      refine ⟨setUnused b₃ idx, ?_, ?_, (hkept.trans hkept₂).trans hkept₃⟩
      · simp [ramfsRmdir, Ramfs.ramfsRmdir, hfound, hfound', hparent, hfind, htype, hdir, hempty, ← hcount,
          hsome, hsome', hremove]
      · simpa [Ramfs.ramfsRmdir, hfound', hfind, hdir, hempty, hsome'] using setUnused_stands hstands₃

lemma ramfsRmdir_eq (h : Stands l b r) (hs : Passed l b.strtok.memory path s) :
    ∃ b', ramfsRmdir l b path = some ((r.ramfsRmdir s).1, b') ∧ Stands l b' (r.ramfsRmdir s).2 ∧
      l.Kept b.strtok.memory b'.strtok.memory := by
  obtain ⟨b₁, hfound, hstands, hframe, hin⟩ := ramfsFindInode_eq h hs.string hs.ne hs.inner
  have hkept := Layout.kept_inner hframe
  cases hfind : r.ramfsFindInode s with
  | mk found r₁ =>
    rw [hfind] at hfound hstands hin
    cases found with
    | none =>
      refine ⟨b₁, ?_, ?_, hkept⟩
      · simp [ramfsRmdir, Ramfs.ramfsRmdir, hfound, hfind]
      · simpa [Ramfs.ramfsRmdir, hfind] using hstands
    | some idx =>
      have hidx := hin idx rfl
      have htype := (hstands.names idx hidx).type
      have hcount := (hstands.names idx hidx).length
      by_cases hdir : (r₁.inodes idx).type = .dir
      · by_cases hempty : (r₁.inodes idx).entries = []
        · exact ramfsRmdir_empty hstands hkept (hframe.stringAt hs.string hs.inner) hs.temp hfound hfind
            hidx hdir hempty
        · have hpos : 0 < (b₁.inodes idx).numEntries := hcount ▸ List.length_pos_iff.mpr hempty
          refine ⟨b₁, ?_, ?_, hkept⟩
          · simp [ramfsRmdir, Ramfs.ramfsRmdir, hfound, hfind, htype, hdir, hempty, hpos]
          · simpa [Ramfs.ramfsRmdir, hfind, hdir, hempty] using hstands
      · refine ⟨b₁, ?_, ?_, hkept⟩
        · simp [ramfsRmdir, Ramfs.ramfsRmdir, hfound, hfind, htype, hdir]
        · simpa [Ramfs.ramfsRmdir, hfind, hdir] using hstands

lemma callDir_eq (op : DirOp) (h : Stands l b r) (hs : Passed l b.strtok.memory path s) :
    ∃ b', callDir l b path op = some ((r.callDir s op).1, b') ∧ Stands l b' (r.callDir s op).2 ∧
      l.Kept b.strtok.memory b'.strtok.memory := by
  cases op with
  | create =>
    obtain ⟨b', hcall, hstands, hkept⟩ := ramfsCreate_eq h hs
    exact ⟨b', by rw [callDir, hcall]; rfl, hstands, hkept⟩
  | mkdir =>
    obtain ⟨b', hcall, hstands, hkept⟩ := ramfsMkdir_eq h hs
    exact ⟨b', by rw [callDir, hcall]; rfl, hstands, hkept⟩
  | unlink =>
    obtain ⟨b', hcall, hstands, hkept⟩ := ramfsUnlink_eq h hs
    exact ⟨b', by rw [callDir, hcall]; rfl, hstands, hkept⟩
  | rmdir =>
    obtain ⟨b', hcall, hstands, hkept⟩ := ramfsRmdir_eq h hs
    exact ⟨b', by rw [callDir, hcall]; rfl, hstands, hkept⟩

/-- What the callers do to the memory between two calls: the names are not theirs, and no array of the file
system is taken away. -/
structure Between (l : Layout) (m m' : Bytes) : Prop where
  names : ∀ i < ramfsMaxFiles, ∀ k < ramfsMaxEntries, ∀ j < 32, m' (l.name i k + j) = m (l.name i k + j)
  mapped : l.Mapped m'

/-- Calls one after the other, each with a path that the caller has in memory by then, and their results. The
callers may call `strtok` themselves. -/
inductive Calls (l : Layout) : RamfsBytes → List (DirOp × CString) → List ℤ → RamfsBytes → Prop
  | nil {b : RamfsBytes} : Calls l b [] [] b
  | cons {b b' b'' : RamfsBytes} {t : Strtok} {path : ℕ} {s : CString} {op : DirOp} {result : ℤ}
      {calls : List (DirOp × CString)} {results : List ℤ} :
      Between l b.strtok.memory t.memory → Passed l t.memory path s →
      callDir l { b with strtok := t } path op = some (result, b') →
      Calls l b' calls results b'' → Calls l b ((op, s) :: calls) (result :: results) b''

lemma between_stands {t : Strtok} (h : Stands l b r) (hm : Between l b.strtok.memory t.memory) :
    Stands l { b with strtok := t } r := by
  refine ⟨h.heap, hm.mapped, fun i hi => { h.names i hi with entry := fun k e he => ?_ }⟩
  obtain ⟨hidx, hlt, hname⟩ := (h.names i hi).entry k e he
  have hk : k < (r.inodes i).entries.length := (List.getElem?_eq_some_iff.mp he).choose
  have hcount := (h.names i hi).length
  have hle := (h.names i hi).le
  have hfit := e.name.property
  exact ⟨hidx, hlt, hname.moved fun j hj => hm.names i hi k (by omega) j (by omega)⟩

lemma calls_stands {calls : List (DirOp × CString)} {results : List ℤ} {b' : RamfsBytes}
    (hcalls : Calls l b calls results b') (h : Stands l b r) :
    results = (r.callDirs calls).1 ∧ Stands l b' (r.callDirs calls).2 := by
  induction hcalls generalizing r with
  | nil => exact ⟨rfl, h⟩
  | @cons b b₁ b₂ t path s op result calls results hm hs hcall _ ih =>
    obtain ⟨b', hcall', hstands, _⟩ := callDir_eq op (between_stands h hm) hs
    obtain ⟨rfl, rfl⟩ := Prod.mk.inj (Option.some.inj (hcall.symm.trans hcall'))
    obtain ⟨hresults, hlast⟩ := ih hstands
    exact ⟨congrArg _ hresults, hlast⟩

lemma ramfsInit_stands (heap : Malloc) (strtok : Strtok) (hm : l.Mapped strtok.memory) :
    Stands l (blank heap strtok).ramfsInit (Ramfs.blank heap).ramfsInit := by
  refine ⟨rfl, hm, fun i _ => ?_⟩
  by_cases hi : i = 0
  · subst hi
    exact stands_empty
  · simp only [ramfsInit, Ramfs.ramfsInit, hi, if_false]
    exact stands_empty

/-- From `ramfs_init` on, every call ends, changes nothing in memory but the arrays of the file system, and
returns what the operation on strings returns. -/
theorem calls_refine {heap : Malloc} {strtok : Strtok} {calls : List (DirOp × CString)} {results : List ℤ}
    {b' : RamfsBytes} (hm : l.Mapped strtok.memory)
    (hcalls : Calls l (blank heap strtok).ramfsInit calls results b') :
    results = ((Ramfs.blank heap).ramfsInit.callDirs calls).1 ∧
      Stands l b' ((Ramfs.blank heap).ramfsInit.callDirs calls).2 ∧
      ∀ (t : Strtok) path s op, Between l b'.strtok.memory t.memory → Passed l t.memory path s →
        ∃ result b'', callDir l { b' with strtok := t } path op = some (result, b'') ∧
          l.Kept t.memory b''.strtok.memory := by
  obtain ⟨hresults, hstands⟩ := calls_stands hcalls (ramfsInit_stands heap strtok hm)
  refine ⟨hresults, hstands, fun t path s op hbetween hs => ?_⟩
  obtain ⟨b'', hcall, _, hkept⟩ := callDir_eq op (between_stands hstands hbetween) hs
  exact ⟨_, b'', hcall, hkept⟩

def noteName (i k : ℕ) : ℕ := 0x100000 + 9240 * i + 36 * k + 16

lemma noteName_above (i k : ℕ) : 0x100000 ≤ noteName i k := by
  rw [noteName]
  omega

lemma noteName_apart {a n : ℕ} (h : a + n ≤ 0x100000) (i k : ℕ) : Apart a n (noteName i k) 32 :=
  Or.inl (h.trans (noteName_above i k))

lemma noteNames_apart {i k j n : ℕ} (hk : k < ramfsMaxEntries) (hn : n < ramfsMaxEntries)
    (hne : (i, k) ≠ (j, n)) : Apart (noteName i k) 32 (noteName j n) 32 := by
  rw [ramfsMaxEntries] at hk hn
  rw [Apart, noteName, noteName]
  obtain hlt | rfl | hlt := Nat.lt_trichotomy i j
  · omega
  · have hkn : k ≠ n := fun h => hne (by rw [h])
    omega
  · omega

def noteLayout : Layout where
  name := noteName
  temp := 0x8000
  inner := 0x7000
  empty := 0x6000
  temp_ne := Nat.succ_ne_zero _
  inner_ne := Nat.succ_ne_zero _
  empty_ne := Nat.succ_ne_zero _
  temp_inner := Or.inr (Nat.le_of_ble_eq_true rfl)
  empty_temp := Or.inr (Nat.le_of_ble_eq_true rfl)
  empty_inner := Or.inr (Nat.le_of_ble_eq_true rfl)
  name_temp i _ k _ := noteName_apart (Nat.le_of_ble_eq_true rfl) i k
  name_inner i _ k _ := noteName_apart (Nat.le_of_ble_eq_true rfl) i k
  name_empty i _ k _ := (noteName_apart (Nat.le_of_ble_eq_true rfl) i k).symm
  name_name _ _ _ hk _ _ _ hn hne := noteNames_apart hk hn hne

def withPath (s : CString) (m : Bytes) : Bytes := fun a =>
  if 0x5000 ≤ a ∧ a < 0x5100 then some (padded s (a - 0x5000)) else m a

lemma withPath_passed (hs : s.length < 0x100) : Passed noteLayout (withPath s m) 0x5000 s := by
  have hat : ∀ i < 0x100, withPath s m (0x5000 + i) = some (padded s i) := by
    intro i hi
    rw [withPath, if_pos (by omega), Nat.add_sub_cancel_left]
  refine ⟨stringAt_of_bytes (fun i hi => hat i (by omega)) ?_, by decide, ?_, ?_⟩
  · rw [hat s.length hs, padded, List.getD_eq_getElem?_getD, List.getElem?_eq_none (by rw [List.length_map])]
    rfl
  · change Apart 0x8000 256 0x5000 (s.length + 1)
    rw [Apart]
    omega
  · change Apart 0x7000 256 0x5000 (s.length + 1)
    rw [Apart]
    omega

lemma withPath_between (h : noteLayout.Mapped m) : Between noteLayout m (withPath s m) := by
  have hout : ∀ a, 0x5100 ≤ a → withPath s m a = m a := fun a ha => if_neg (by omega)
  refine ⟨fun i _ k _ j _ => hout _ ?_, fun i hi => ?_, fun i hi => ?_, fun i hi k hk j hj => ?_, ?_⟩
  · have habove : 0x100000 ≤ noteLayout.name i k := noteName_above i k
    omega
  · rw [hout _ (by change 0x5100 ≤ 0x8000 + i; omega)]
    exact h.temp i hi
  · rw [hout _ (by change 0x5100 ≤ 0x7000 + i; omega)]
    exact h.inner i hi
  · have habove : 0x100000 ≤ noteLayout.name i k := noteName_above i k
    rw [hout _ (by omega)]
    exact h.name i hi k hk j hj
  · exact (hout 0x6000 (by decide)).trans h.empty

lemma exists_calls (h : Stands noteLayout b r) {calls : List (DirOp × CString)}
    (hlength : ∀ call ∈ calls, call.2.length < 0x100) : ∃ results b', Calls noteLayout b calls results b' := by
  induction calls generalizing b r with
  | nil => exact ⟨[], b, .nil⟩
  | cons call calls ih =>
    have hbetween : Between noteLayout b.strtok.memory (withPath call.2 b.strtok.memory) :=
      withPath_between h.mapped
    have hpassed := withPath_passed (m := b.strtok.memory) (hlength call List.mem_cons_self)
    obtain ⟨b₁, hcall, hstands, _⟩ := callDir_eq call.1 (@between_stands _ _ _
      ⟨b.strtok.next, withPath call.2 b.strtok.memory⟩ h hbetween) hpassed
    obtain ⟨results, b', hrest⟩ := ih hstands fun c hc => hlength c (List.mem_cons_of_mem call hc)
    exact ⟨_, b', .cons hbetween hpassed hcall hrest⟩

def noteStrtok : Strtok := ⟨0, fun _ => some 0⟩

def noteHeap : Malloc := ⟨fun _ => none, 0, fun _ => none⟩

theorem calls_refine_note : ∃ results b', Calls noteLayout (blank noteHeap noteStrtok).ramfsInit
    [(.mkdir, cstring "a"), (.create, cstring "a/b"), (.rmdir, cstring "a")] results b' ∧
      results = [0, 2, -1] := by
  have hany : ∀ a, noteStrtok.memory a ≠ none := fun _ => Option.some_ne_none 0
  have hm : noteLayout.Mapped noteStrtok.memory :=
    ⟨fun _ _ => hany _, fun _ _ => hany _, fun _ _ _ _ _ _ => hany _, rfl⟩
  obtain ⟨results, b', hcalls⟩ := @exists_calls _ _ (ramfsInit_stands noteHeap noteStrtok hm)
    [(.mkdir, cstring "a"), (.create, cstring "a/b"), (.rmdir, cstring "a")] (by decide)
  exact ⟨results, b', hcalls, (calls_refine hm hcalls).1.trans (by decide)⟩

end RamfsBytes

end Veni.Filesystem
