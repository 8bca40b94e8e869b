import Mathlib.Data.List.Find
import Veni.Filesystem.RamfsLookup

/-! The entries of a directory, written and moved in memory as the lists of the file system change. -/

namespace Veni.Filesystem

open Veni.Libc Veni.Libc.Bytes

structure NamesFrame (name : ℕ → ℕ) (m m' : Bytes) : Prop where
  same : ∀ x, (∀ k < ramfsMaxEntries, x < name k ∨ name k + 32 ≤ x) → m' x = m x
  defined : ∀ x, m x ≠ none → m' x ≠ none

variable {l : Layout} {m m' : Bytes} {name : ℕ → ℕ} {s : CString} {p : ℕ}

lemma NamesFrame.refl (name : ℕ → ℕ) (m : Bytes) : NamesFrame name m m := ⟨fun _ _ => rfl, fun _ => id⟩

lemma NamesFrame.trans {m'' : Bytes} (h : NamesFrame name m m') (h' : NamesFrame name m' m'') :
    NamesFrame name m m'' :=
  ⟨fun x hx => (h'.same x hx).trans (h.same x hx), fun x hx => h'.defined x (h.defined x hx)⟩

lemma NamesFrame.of_frame {k : ℕ} (h : Frame (name k) 32 m m') (hk : k < ramfsMaxEntries) :
    NamesFrame name m m' :=
  ⟨fun x hx => h.same x (hx k hk), h.defined⟩

lemma NamesFrame.writable {a n : ℕ} (h : NamesFrame name m m') (hw : Writable m a n) : Writable m' a n :=
  fun i hi => h.defined _ (hw i hi)

lemma NamesFrame.stringAt {a : ℕ} (h : NamesFrame name m m') (hs : StringAt m a s)
    (hapart : ∀ k < ramfsMaxEntries, Apart (name k) 32 a (s.length + 1)) : StringAt m' a s := by
  apply hs.congr
  intro x hx hxs
  apply h.same
  intro k hk
  have hk := hapart k hk
  rw [Apart] at hk
  omega

lemma NamesFrame.kept (h : NamesFrame (l.name p) m m') (hp : p < ramfsMaxFiles) : l.Kept m m' :=
  fun x _ _ hx => h.same x (hx p hp)

lemma Layout.Mapped.names (h : l.Mapped m) (hp : p < ramfsMaxFiles) (hframe : NamesFrame (l.name p) m m') :
    l.Mapped m' := by
  refine ⟨hframe.writable h.temp, hframe.writable h.inner,
    fun i hi k hk => hframe.writable (h.name i hi k hk), ?_⟩
  rw [hframe.same, h.empty]
  intro k hk
  have hempty := l.name_empty p hp k hk
  rw [Apart] at hempty
  omega

lemma ByteInode.Stands.names {x : ByteInode} {y : RamfsInode} {i : ℕ} (h : x.Stands (l.name i) m y)
    (hi : i < ramfsMaxFiles) (hp : p < ramfsMaxFiles) (hne : i ≠ p)
    (hframe : NamesFrame (l.name p) m m') : x.Stands (l.name i) m' y := by
  refine { h with entry := fun k e he => ?_ }
  obtain ⟨hidx, hlt, hname⟩ := h.entry k e he
  have hk : k < y.entries.length := (List.getElem?_eq_some_iff.mp he).choose
  have hcount := h.length
  have hle := h.le
  have hlength := e.name.property
  refine ⟨hidx, hlt, hframe.stringAt hname fun j hj => ?_⟩
  have hat := l.name_name p hp j hj i hi k (by omega) (by simp [Ne.symm hne])
  rw [Apart] at hat ⊢
  omega

namespace RamfsBytes

variable {b : RamfsBytes} {r : Ramfs} {x : ByteInode} {y : RamfsInode} {w : CString} {i idx : ℕ}

lemma Stands.setInode (h : Stands l b r) (hi : i < ramfsMaxFiles → x.Stands (l.name i) b.strtok.memory y) :
    Stands l (b.setInode i x) (r.setInode i y) := by
  refine ⟨h.heap, h.mapped, fun j hj => ?_⟩
  change (Function.update b.inodes i x j).Stands (l.name j) b.strtok.memory (Function.update r.inodes i y j)
  by_cases hji : j = i
  · rw [hji, Function.update_self, Function.update_self]
    exact hi (hji ▸ hj)
  · rw [Function.update_of_ne hji, Function.update_of_ne hji]
    exact h.names j hj

lemma Stands.setNames (h : Stands l b r) (hp : p < ramfsMaxFiles)
    (hframe : NamesFrame (l.name p) b.strtok.memory m') (hx : x.Stands (l.name p) m' y) :
    Stands l ((b.setMemory m').setInode p x) (r.setInode p y) := by
  refine ⟨h.heap, h.mapped.names hp hframe, fun j hj => ?_⟩
  change (Function.update b.inodes p x j).Stands (l.name j) m' (Function.update r.inodes p y j)
  by_cases hjp : j = p
  · rw [hjp, Function.update_self, Function.update_self]
    exact hx
  · rw [Function.update_of_ne hjp, Function.update_of_ne hjp]
    exact (h.names j hj).names hj hp hjp hframe

lemma stands_empty {type : InodeType} {data : Option ℕ} {size capacity : ℕ} {inodeIdx : ℕ → ℕ} {used : Bool} :
    (⟨type, data, size, capacity, inodeIdx, 0, used⟩ : ByteInode).Stands name m
      ⟨type, data, size, capacity, [], used⟩ :=
  ⟨rfl, rfl, rfl, rfl, rfl, rfl, Nat.zero_le _, fun k e he => by simp at he⟩

lemma allocInode_eq (h : Stands l b r) : (r.allocInode = none ∧ allocInode b = none) ∨
    ∃ idx < ramfsMaxFiles, ∃ inodeIdx, r.allocInode = some (idx, r.setInode idx (Ramfs.emptyInode .file)) ∧
      allocInode b = some (idx, b.setInode idx ⟨.file, none, 0, 0, inodeIdx, 0, true⟩) := by
  have hfind : (List.range ramfsMaxFiles).find? (fun i => !(b.inodes i).used) =
      (List.range ramfsMaxFiles).find? fun i => !(r.inodes i).used := by
    apply List.find?_congr
    intro i hi
    rw [(h.names i (List.mem_range.mp hi)).used]
  rw [Ramfs.allocInode, allocInode, hfind]
  cases hfree : (List.range ramfsMaxFiles).find? fun i => !(r.inodes i).used with
  | none => exact Or.inl ⟨rfl, rfl⟩
  | some idx =>
    have hidx := List.mem_range.mp (List.mem_of_find?_eq_some hfree)
    exact Or.inr ⟨idx, hidx, _, rfl, rfl⟩

lemma addEntry_eq {token : ℕ} (h : Stands l b r) (hp : p < ramfsMaxFiles) (hidx : idx < ramfsMaxFiles)
    (hw : StringAt b.strtok.memory token w) (hin : l.temp ≤ token ∧ token + w.length < l.temp + 256) :
    (r.addEntry p w idx = none ∧ addEntry l b p token idx = some none) ∨
    ∃ b' r', r.addEntry p w idx = some r' ∧ addEntry l b p token idx = some (some b') ∧ Stands l b' r' ∧
      l.Kept b.strtok.memory b'.strtok.memory := by
  have hdir := h.names p hp
  have hcount := hdir.length
  by_cases hfull : ramfsMaxEntries ≤ (b.inodes p).numEntries
  · left
    rw [Ramfs.addEntry, addEntry, hcount]
    exact ⟨if_pos hfull, if_pos hfull⟩
  · have hroom : (b.inodes p).numEntries < ramfsMaxEntries := Nat.lt_of_not_le hfull
    have hapart : Apart (l.name p (b.inodes p).numEntries) 32 token (w.length + 1) := by
      have htemp := l.name_temp p hp _ hroom
      rw [Apart] at htemp ⊢
      omega
    obtain ⟨m₁, hcopy, hstring, hframe⟩ := strncpy_terminated (Nat.le_refl 31) (Nat.le_succ 31) hw
      (h.mapped.name p hp _ hroom) hapart
    have hadded : ByteInode.Stands
        { b.inodes p with
          inodeIdx := Function.update (b.inodes p).inodeIdx (b.inodes p).numEntries idx
          numEntries := (b.inodes p).numEntries + 1 } (l.name p) m₁
        { r.inodes p with entries := (r.inodes p).entries ++ [⟨strncpy 31 w, idx⟩] } := by
      refine ⟨hdir.type, hdir.data, hdir.size, hdir.capacity, hdir.used, ?_, hroom, fun k e he => ?_⟩
      · simp [hcount]
      · by_cases hk : k = (b.inodes p).numEntries
        · rw [hk, ← hcount, List.getElem?_concat_length] at he
          cases he
          rw [hk]
          exact ⟨Function.update_self .., hidx, hstring⟩
        · have hlt := (List.getElem?_eq_some_iff.mp he).choose
          rw [List.length_append, List.length_singleton, hcount] at hlt
          rw [List.getElem?_append_left (by omega)] at he
          obtain ⟨hold, hin, hname⟩ := hdir.entry k e he
          refine ⟨(Function.update_of_ne hk _ _).trans hold, hin, hframe.stringAt hname ?_⟩
          have hlength := e.name.property
          have hat := l.name_name p hp _ hroom p hp k (by omega) (by simp [Ne.symm hk])
          rw [Apart] at hat ⊢
          omega
    right
    have hnames : NamesFrame (l.name p) b.strtok.memory m₁ := .of_frame hframe hroom
    refine ⟨_, _, ?_, ?_, h.setNames hp hnames hadded, hnames.kept hp⟩
    · rw [Ramfs.addEntry, hcount]
      exact if_neg hfull
    · simp only [addEntry, if_neg hfull, hcopy, Option.map_some]

lemma shiftEntries_spec {n : ℕ} {inodeIdx : ℕ → ℕ} {entries : List RamfsDirent}
    (hlength : entries.length = i + n + 1) (hle : entries.length ≤ ramfsMaxEntries)
    (hmapped : ∀ k < ramfsMaxEntries, Writable m (name k) 32)
    (hapart : ∀ j < ramfsMaxEntries, ∀ k < ramfsMaxEntries, j ≠ k → Apart (name j) 32 (name k) 32)
    (hentries : ∀ k e, entries[k]? = some e → inodeIdx k = e.inodeIdx ∧ StringAt m (name k) e.name.val) :
    ∃ m' inodeIdx', shiftEntries name n i m inodeIdx = some (m', inodeIdx') ∧ NamesFrame name m m' ∧
      ∀ k e, (entries.eraseIdx i)[k]? = some e →
        inodeIdx' k = e.inodeIdx ∧ StringAt m' (name k) e.name.val := by
  induction n generalizing i m inodeIdx entries with
  | zero =>
    refine ⟨m, inodeIdx, rfl, NamesFrame.refl _ _, fun k e he => hentries k e ?_⟩
    have hk := (List.getElem?_eq_some_iff.mp he).choose
    rw [List.length_eraseIdx_of_lt (by omega)] at hk
    rwa [List.getElem?_eraseIdx_of_lt (by omega)] at he
  | succ n ih =>
    have hi : i + 1 < entries.length := by omega
    have hnext := hentries (i + 1) entries[i + 1] (List.getElem?_eq_getElem hi)
    have hpair := hapart i (by omega) (i + 1) (by omega) (by omega)
    obtain ⟨m₁, hcopy, hbytes, hframe⟩ := memcpy_spec (hmapped i (by omega)) (hmapped (i + 1) (by omega)) hpair
    have hnames : NamesFrame name m m₁ := .of_frame hframe (by omega)
    have hmoved : StringAt m₁ (name i) entries[i + 1].name.val := by
      apply hnext.2.moved
      intro j hj
      have hfit := entries[i + 1].name.property
      exact hbytes j (by omega)
    obtain ⟨m', inodeIdx', hrun, hlast, hall⟩ := @ih m₁ (i + 1)
      (Function.update inodeIdx i (inodeIdx (i + 1))) (entries.set i entries[i + 1])
      (by rw [List.length_set]; omega) (by rwa [List.length_set])
      (fun k hk => hnames.writable (hmapped k hk)) (fun k e he => by
        by_cases hk : k = i
        · rw [hk, List.getElem?_set_self (by omega)] at he
          cases he
          rw [hk, Function.update_self]
          exact ⟨hnext.1, hmoved⟩
        · rw [List.getElem?_set_ne (Ne.symm hk)] at he
          obtain ⟨hidx, hname⟩ := hentries k e he
          have hlt := (List.getElem?_eq_some_iff.mp he).choose
          have hfit := e.name.property
          have hat := hapart i (by omega) k (by omega) (Ne.symm hk)
          refine ⟨(Function.update_of_ne hk _ _).trans hidx, hframe.stringAt hname ?_⟩
          rw [Apart] at hat ⊢
          omega)
    have herase : (entries.set i entries[i + 1]).eraseIdx (i + 1) = entries.eraseIdx i := by
      apply List.ext_getElem?
      intro k
      rw [List.getElem?_eraseIdx, List.getElem?_eraseIdx]
      by_cases hk : k = i
      · rw [hk, if_pos (Nat.lt_succ_self i), if_neg (Nat.lt_irrefl i), List.getElem?_set_self (by omega),
          List.getElem?_eq_getElem hi]
      · by_cases hlt : k < i
        · rw [if_pos (by omega), if_pos hlt, List.getElem?_set_ne (Ne.symm hk)]
        · rw [if_neg (by omega), if_neg hlt, List.getElem?_set_ne (by omega)]
    rw [herase] at hall
    exact ⟨m', inodeIdx', by simp [shiftEntries, hcopy, hrun], hnames.trans hlast, hall⟩

lemma removeEntry_eq {k : ℕ} (h : Stands l b r) (hp : p < ramfsMaxFiles)
    (hfind : (r.inodes p).entries.findIdx? (fun e => decide (e.name.val = w)) = some k) :
    ∃ b', removeEntry l b p k = some b' ∧ Stands l b' (r.removeEntry p w) ∧
      l.Kept b.strtok.memory b'.strtok.memory := by
  have hdir := h.names p hp
  have hcount := hdir.length
  have hle := hdir.le
  obtain ⟨hk, _⟩ := List.findIdx?_eq_some_iff_getElem.mp hfind
  obtain ⟨m', inodeIdx', hshift, hframe, hall⟩ := @shiftEntries_spec b.strtok.memory (l.name p) k
    ((b.inodes p).numEntries - 1 - k) (b.inodes p).inodeIdx (r.inodes p).entries (by omega) (by omega)
    (fun j hj => h.mapped.name p hp j hj)
    (fun j hj i hi hne => l.name_name p hp j hj p hp i hi (by simpa using hne))
    (fun j e he => ⟨(hdir.entry j e he).1, (hdir.entry j e he).2.2⟩)
  have herase : r.removeEntry p w =
      r.setInode p { r.inodes p with entries := (r.inodes p).entries.eraseIdx k } := by
    rw [Ramfs.removeEntry]
    congr 2
    rw [List.eraseP_eq_eraseIdx, hfind]
  have hremoved : ByteInode.Stands
      { b.inodes p with inodeIdx := inodeIdx', numEntries := (b.inodes p).numEntries - 1 } (l.name p) m'
      { r.inodes p with entries := (r.inodes p).entries.eraseIdx k } := by
    refine ⟨hdir.type, hdir.data, hdir.size, hdir.capacity, hdir.used, ?_, ?_, fun j e he => ?_⟩
    · change ((r.inodes p).entries.eraseIdx k).length = (b.inodes p).numEntries - 1
      rw [List.length_eraseIdx_of_lt hk, hcount]
    · change (b.inodes p).numEntries - 1 ≤ ramfsMaxEntries
      omega
    · obtain ⟨hidx, hname⟩ := hall j e he
      obtain ⟨i, hi⟩ := List.mem_iff_getElem?.mp (List.mem_of_mem_eraseIdx (List.mem_of_getElem? he))
      exact ⟨hidx, (hdir.entry i e hi).2.1, hname⟩
  rw [herase]
  refine ⟨_, ?_, h.setNames hp hframe hremoved, hframe.kept hp⟩
  rw [removeEntry, hshift]
  rfl

end RamfsBytes

end Veni.Filesystem
