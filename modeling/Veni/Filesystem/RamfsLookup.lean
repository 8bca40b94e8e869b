import Veni.Filesystem.RamfsBytes

/-! The bytes of the names and paths stand for the strings of the file system, and lookups find the same. -/

namespace Veni.Filesystem

open Veni.Libc Veni.Libc.Bytes Veni.Lib.Tokens

/-- The arrays may be read and written. -/
structure Layout.Mapped (l : Layout) (m : Bytes) : Prop where
  temp : Writable m l.temp 256
  inner : Writable m l.inner 256
  name : ∀ i < ramfsMaxFiles, ∀ k < ramfsMaxEntries, Writable m (l.name i k) 32
  empty : m l.empty = some 0

/-- An inode with the names of its entries in memory. -/
structure ByteInode.Stands (x : ByteInode) (name : ℕ → ℕ) (m : Bytes) (y : RamfsInode) : Prop where
  type : x.type = y.type
  data : x.data = y.data
  size : x.size = y.size
  capacity : x.capacity = y.capacity
  used : x.used = y.used
  length : y.entries.length = x.numEntries
  le : x.numEntries ≤ ramfsMaxEntries
  entry : ∀ k e, y.entries[k]? = some e →
    x.inodeIdx k = e.inodeIdx ∧ e.inodeIdx < ramfsMaxFiles ∧ StringAt m (name k) e.name.val

def NamesAt (l : Layout) (inodes : ℕ → ByteInode) (m : Bytes) (abstract : ℕ → RamfsInode) : Prop :=
  ∀ i < ramfsMaxFiles, (inodes i).Stands (l.name i) m (abstract i)

variable {l : Layout} {inodes : ℕ → ByteInode} {abstract : ℕ → RamfsInode} {m m' : Bytes} {a : ℕ}
  {s w : CString}

lemma ByteInode.Stands.frame {x : ByteInode} {y : RamfsInode} {name : ℕ → ℕ} (h : x.Stands name m y)
    (hframe : Frame a 256 m m') (hapart : ∀ k < ramfsMaxEntries, Apart a 256 (name k) 32) :
    x.Stands name m' y := by
  refine { h with entry := fun k e he => ?_ }
  obtain ⟨hidx, hlt, hname⟩ := h.entry k e he
  have hk : k < y.entries.length := (List.getElem?_eq_some_iff.mp he).choose
  have hcount := h.length
  have hle := h.le
  have hat := hapart k (by omega)
  have hlength := e.name.property
  refine ⟨hidx, hlt, hframe.stringAt hname ?_⟩
  rw [Apart] at hat ⊢
  omega

lemma NamesAt.temp (h : NamesAt l inodes m abstract) (hframe : Frame l.temp 256 m m') :
    NamesAt l inodes m' abstract :=
  fun i hi => (h i hi).frame hframe (l.name_temp i hi)

lemma NamesAt.inner (h : NamesAt l inodes m abstract) (hframe : Frame l.inner 256 m m') :
    NamesAt l inodes m' abstract :=
  fun i hi => (h i hi).frame hframe (l.name_inner i hi)

lemma Layout.Mapped.frame {n : ℕ} (h : l.Mapped m) (hframe : Frame a n m m')
    (hempty : Apart a n l.empty 1) : l.Mapped m' := by
  refine ⟨hframe.writable h.temp, hframe.writable h.inner,
    fun i hi k hk => hframe.writable (h.name i hi k hk), ?_⟩
  rw [Apart] at hempty
  exact (hframe.same _ (by omega)).trans h.empty

/-- Nothing has changed outside of the arrays. -/
def Layout.Kept (l : Layout) (m m' : Bytes) : Prop :=
  ∀ x, (x < l.temp ∨ l.temp + 256 ≤ x) → (x < l.inner ∨ l.inner + 256 ≤ x) →
    (∀ i < ramfsMaxFiles, ∀ k < ramfsMaxEntries, x < l.name i k ∨ l.name i k + 32 ≤ x) → m' x = m x

lemma Layout.Kept.trans {m'' : Bytes} (h : l.Kept m m') (h' : l.Kept m' m'') : l.Kept m m'' :=
  fun x htemp hinner hname => (h' x htemp hinner hname).trans (h x htemp hinner hname)

lemma Layout.kept_temp (h : Frame l.temp 256 m m') : l.Kept m m' := fun x hx _ _ => h.same x hx

lemma Layout.kept_inner (h : Frame l.inner 256 m m') : l.Kept m m' := fun x _ hx _ => h.same x hx

namespace RamfsBytes

structure Split (l : Layout) (dirname basename : CString) (m : Bytes) (d b : ℕ) (m' : Bytes) : Prop where
  dirnameAt : StringAt m' d dirname
  basenameAt : StringAt m' b basename
  frame : Frame l.temp 256 m m'
  dir_ne : d ≠ 0
  dir_apart : Apart l.inner 256 d (dirname.length + 1)
  base_apart : Apart l.inner 256 b (basename.length + 1)
  base_inside : l.temp ≤ b ∧ b + basename.length < l.temp + 256

lemma splitPath_spec {path : ℕ} (hs : StringAt m path s) (hm : l.Mapped m)
    (hapart : Apart l.temp 256 path (s.length + 1)) :
    ∃ d b m', splitPath l.temp path l.empty m = some (d, b, m') ∧
      Split l (Ramfs.splitPath s).1 (Ramfs.splitPath s).2 m d b m' := by
  obtain ⟨m₁, hcopy, hstring, hframe⟩ :=
    strncpy_terminated (by decide : 255 ≤ 256) (Nat.le_refl 256) hs hm.temp hapart
  have hlength : (s.take 255).length ≤ 255 := List.length_take_le 255 s
  have hlast : strrchr m₁ slash.val addresses l.temp 0 =
      some ((splitLast isSlash (s.take 255)).elim 0 fun parts => l.temp + parts.1.length) :=
    strrchr_eq hstring (Nat.lt_of_le_of_lt hlength (by decide))
  have hinner := l.temp_inner
  have hempty := l.empty_inner
  have hsplitPath : Ramfs.splitPath s = (splitLast isSlash (s.take 255)).getD ([], s.take 255) := rfl
  rw [Apart] at hinner hempty
  simp only [splitPath, hcopy, Option.bind_eq_bind, Option.bind_some, hlast]
  cases hsplit : splitLast isSlash (s.take 255) with
  | none =>
    rw [hsplit] at hsplitPath
    refine ⟨l.empty, l.temp, m₁, rfl, ?_⟩
    rw [hsplitPath]
    change Split l [] (s.take 255) m l.empty l.temp m₁
    refine ⟨(hm.frame hframe l.empty_temp).empty, hstring, hframe, l.empty_ne, ?_, ?_, ?_⟩
    · exact l.empty_inner
    · rw [Apart]
      omega
    · omega
  | some parts =>
    obtain ⟨front, back⟩ := parts
    rw [hsplit] at hsplitPath
    obtain ⟨c, _, hparts, _⟩ := splitLast_eq_some isSlash hsplit
    rw [hparts] at hstring hlength
    rw [List.length_append, List.length_cons] at hlength
    have hrest := hstring.append
    have hstore : Bytes.store m₁ (l.temp + front.length) 0 =
        some (Function.update m₁ (l.temp + front.length) (some 0)) := by
      rw [Bytes.store, hrest.1, Option.map_some]
    have htemp := l.temp_ne
    have hne : l.temp + front.length ≠ 0 := by omega
    refine ⟨l.temp, l.temp + front.length + 1, Function.update m₁ (l.temp + front.length) (some 0), ?_, ?_⟩
    · refine (if_pos hne).trans ?_
      change (Bytes.store m₁ (l.temp + front.length) 0).bind _ = _
      rw [hstore]
      rfl
    · rw [hsplitPath]
      change Split l front back m l.temp (l.temp + front.length + 1)
        (Function.update m₁ (l.temp + front.length) (some 0))
      refine ⟨hstring.cut, hrest.2.update (Nat.lt_succ_self _) _,
        hframe.trans (frame_update (by omega) (by omega) 0), htemp, ?_, ?_, ?_⟩
      · rw [Apart]
        omega
      · rw [Apart]
        omega
      · omega

lemma searchEntries_eq {name : ℕ → ℕ} {token i : ℕ} {entries : List RamfsDirent}
    (hnames : ∀ k e, entries[k]? = some e → StringAt m (name (i + k)) e.name.val)
    (hw : StringAt m token w) : searchEntries m name token entries.length i =
      some ((entries.findIdx? fun e => decide (e.name.val = w)).map (i + ·)) := by
  induction entries generalizing i with
  | nil => rfl
  | cons e entries ih =>
    have hname := hnames 0 e rfl
    have hlength : e.name.val.length < addresses := Nat.lt_trans e.name.property (by decide)
    obtain ⟨r, hr, hiff⟩ := strcmp_eq_zero hname hw hlength
    have hrest := @ih (i + 1) fun k e he => by
      have h := hnames (k + 1) e he
      rw [Nat.add_comm k, ← Nat.add_assoc] at h
      exact h
    rw [Nat.add_zero] at hr
    simp only [List.length_cons, searchEntries, hr, Option.bind_eq_bind, Option.bind_some, hrest,
      List.findIdx?_cons]
    by_cases he : e.name.val = w
    · simp [hiff.mpr he, he]
    · have hr0 : r ≠ 0 := fun h => he (hiff.mp h)
      simp only [hr0, if_false, he, decide_false, Bool.false_eq_true, Option.map_map]
      congr 2
      funext k
      simp only [Function.comp_apply]
      omega

lemma findEntry_eq (entries : List RamfsDirent) (w : CString) : Ramfs.findEntry entries w =
    (entries.findIdx? fun e => decide (e.name.val = w)).bind (entries[·]?) := by
  induction entries with
  | nil => rfl
  | cons e entries ih =>
    simp only [Ramfs.findEntry, List.find?_cons, List.findIdx?_cons] at ih ⊢
    by_cases he : e.name.val = w
    · simp [he]
    · simp only [he, decide_false, Bool.false_eq_true, if_false, ih, Option.bind_map]
      rfl

lemma search_stands {x : ByteInode} {y : RamfsInode} {name : ℕ → ℕ} {token : ℕ}
    (h : x.Stands name m y) (hw : StringAt m token w) :
    searchEntries m name token x.numEntries 0 =
      some (y.entries.findIdx? fun e => decide (e.name.val = w)) := by
  rw [← h.length, searchEntries_eq (fun k e he => by
    rw [Nat.zero_add]
    exact (h.entry k e he).2.2) hw]
  simp

structure Stepped (a : ℕ) (s : CString) (m : Bytes) (q : ℕ) (u : Strtok) : Prop where
  next_ne : u.next ≠ 0
  rest : StringAt u.memory u.next (tokenStep s).2
  inside : ∀ i < (tokenStep s).2.length, a ≤ u.next + i ∧ u.next + i < a + 256
  token : ∀ w, (tokenStep s).1 = some w → q ≠ 0 ∧ StringAt u.memory q w
  null : (tokenStep s).1 = none → q = 0
  frame : Frame a 256 m u.memory

lemma strtok_stepped {str start : ℕ} {t : Strtok} (hstart : (if str ≠ 0 then str else t.next) = start)
    (h0 : start ≠ 0) (h : StringAt t.memory start s) (hlength : s.length < 256)
    (hinside : ∀ i < s.length, a ≤ start + i ∧ start + i < a + 256) :
    ∃ q u, Bytes.strtok [slash] str t = some (q, u) ∧ Stepped a s t.memory q u := by
  have hf : s.length < addresses := Nat.lt_trans hlength (by decide)
  have hset := inSet_slash
  cases hs : s.dropWhile isSlash with
  | nil =>
    have hstep : tokenStep s = (none, []) := by simp [tokenStep, hs]
    have hend : StringAt t.memory (start + s.length) [] := by
      apply StringAt.append
      rwa [List.append_nil]
    refine ⟨0, _, strtok_nil hstart h0 h hf (by rwa [hset]), ?_, ?_, ?_, ?_, fun _ => rfl,
      Frame.refl _ _ _⟩
    · change start + s.length ≠ 0
      omega
    · rw [hstep]
      exact hend
    · rw [hstep]
      exact fun i hi => absurd hi (Nat.not_lt_zero i)
    · rw [hstep]
      exact fun w hw => (Option.some_ne_none w hw.symm).elim
  | cons c cs =>
    obtain ⟨j, n, hcall, hdrop, htaken⟩ := strtok_cons hstart h0 h hf (by rwa [hset])
    have hword := htaken.word
    rw [hset] at hdrop hword hcall
    have hstep : tokenStep s = (some (c :: cs.takeWhile fun x => !isSlash x), s.drop j) := by
      simp [tokenStep, hs, hdrop]
    refine ⟨_, _, hcall, ?_, ?_, ?_, ?_, ?_, fun x hx => ?_, fun x hx => ?_⟩
    · change start + j ≠ 0
      omega
    · rw [hstep]
      exact htaken.rest
    · rw [hstep]
      intro i hi
      rw [List.length_drop] at hi
      have hat := hinside (j + i) (by omega)
      rw [← Nat.add_assoc] at hat
      exact hat
    · rw [hstep]
      intro w hw
      rw [← Option.some.inj hw]
      exact ⟨by omega, hword⟩
    · rw [hstep]
      exact fun hnone => (Option.some_ne_none _ hnone).elim
    · obtain hsame | ⟨i, d, hi, _, rfl, _⟩ := htaken.cleared x
      · exact hsame
      · have hat := hinside i (List.getElem?_eq_some_iff.mp hi).choose
        omega
    · obtain hsame | ⟨i, d, _, _, rfl, hzero⟩ := htaken.cleared x
      · change n x ≠ none
        rw [hsame]
        exact hx
      · change n (start + i) ≠ none
        rw [hzero]
        exact Option.some_ne_none 0

lemma tokenStep_length {rest : CString} (h : tokenStep s = (some w, rest)) : rest.length < s.length := by
  have hsplit := congrArg List.length (List.takeWhile_append_dropWhile (p := isSlash) (l := s))
  rw [List.length_append] at hsplit
  rw [tokenStep] at h
  cases hs : s.dropWhile isSlash with
  | nil =>
    rw [hs] at h
    cases h
  | cons c cs =>
    rw [hs] at h hsplit
    cases h
    have hdrop := List.length_dropWhile_le (fun x => !isSlash x) cs
    rw [List.length_cons] at hsplit
    rw [List.length_drop]
    omega

lemma findTokens_eq {fuel n current q : ℕ} {u : Strtok} (hu : Stepped l.inner s m q u)
    (hnames : NamesAt l inodes u.memory abstract) (hcurrent : current < ramfsMaxFiles)
    (hfuel : s.length < fuel) (hn : s.length < n) (hlength : s.length < 256) :
    ∃ t, findTokens inodes l.name fuel current q u =
        some ((Ramfs.findLoop abstract n current s).1, t) ∧ Frame l.inner 256 u.memory t.memory ∧
      ∀ i, (Ramfs.findLoop abstract n current s).1 = some i → i < ramfsMaxFiles := by
  induction fuel generalizing s n current q u m with
  | zero => exact absurd hfuel (Nat.not_lt_zero _)
  | succ fuel ih =>
    obtain ⟨n, rfl⟩ := Nat.exists_eq_succ_of_ne_zero (Nat.ne_zero_of_lt hn)
    have hstands := hnames current hcurrent
    cases hstep : tokenStep s with
    | mk found rest =>
      cases found with
      | none =>
        have hloop : Ramfs.findLoop abstract (n + 1) current s = (some current, rest) := by
          rw [Ramfs.findLoop, hstep]
        refine ⟨u, ?_, Frame.refl _ _ _, ?_⟩
        · rw [findTokens, if_pos (hu.null (by rw [hstep])), hloop]
        · rw [hloop]
          rintro i hi
          cases hi
          exact hcurrent
      | some w =>
        obtain ⟨hq, hw⟩ := hu.token w (by rw [hstep])
        have hrest := hu.rest
        have hinside := hu.inside
        have hshorter := tokenStep_length hstep
        rw [hstep] at hrest hinside
        simp only [findTokens, if_neg hq, Ramfs.findLoop, hstep, hstands.type]
        by_cases hdir : (abstract current).type = .dir
        · rw [if_neg (not_not.mpr hdir), if_pos hdir, search_stands hstands hw, findEntry_eq]
          cases hfind : (abstract current).entries.findIdx? fun e => decide (e.name.val = w) with
          | none => exact ⟨u, rfl, Frame.refl _ _ _, fun i hi => (Option.some_ne_none i hi.symm).elim⟩
          | some k =>
            obtain ⟨hk, _⟩ := List.findIdx?_eq_some_iff_getElem.mp hfind
            have hentry := List.getElem?_eq_getElem hk
            obtain ⟨hidx, hlt, _⟩ := hstands.entry k _ hentry
            obtain ⟨q', u', hcall, hu'⟩ := @strtok_stepped l.inner rest 0 u.next u rfl hu.next_ne hrest
              (by omega) hinside
            have hfound := @ih u.memory rest n ((abstract current).entries[k]).inodeIdx q' u' hu'
              (hnames.inner hu'.frame) hlt (by omega) (by omega) (by omega)
            obtain ⟨t, hrun, hframe, hin⟩ := hfound
            simp only [Option.bind_some, hentry, hcall, hidx]
            exact ⟨t, hrun, hu'.frame.trans hframe, hin⟩
        · rw [if_pos hdir, if_neg hdir]
          exact ⟨u, rfl, Frame.refl _ _ _, fun i hi => (Option.some_ne_none i hi.symm).elim⟩

/-- The two file systems have the same inodes, and the memory has the names. -/
structure Stands (l : Layout) (b : RamfsBytes) (r : Ramfs) : Prop where
  heap : b.heap = r.heap
  mapped : l.Mapped b.strtok.memory
  names : NamesAt l b.inodes b.strtok.memory r.inodes

variable {b : RamfsBytes} {r : Ramfs} {path : ℕ}

lemma ramfsFindInode_eq (h : Stands l b r) (hs : StringAt b.strtok.memory path s) (hpath : path ≠ 0)
    (hapart : Apart l.inner 256 path (s.length + 1)) :
    ∃ b', ramfsFindInode l b path = some ((Ramfs.ramfsFindInode r s).1, b') ∧
      Stands l b' (Ramfs.ramfsFindInode r s).2 ∧
      Frame l.inner 256 b.strtok.memory b'.strtok.memory ∧
      ∀ i, (Ramfs.ramfsFindInode r s).1 = some i → i < ramfsMaxFiles := by
  cases s with
  | nil =>
    have hzero : b.strtok.memory path = some 0 := hs
    refine ⟨b, by simp [ramfsFindInode, hpath, hzero, Ramfs.ramfsFindInode], h, Frame.refl _ _ _, ?_⟩
    rintro i hi
    cases hi
    exact (by decide : 0 < 64)
  | cons c cs =>
    obtain ⟨m₁, hcopy, hstring, hframe⟩ :=
      strncpy_terminated (by decide : 255 ≤ 256) (Nat.le_refl 256) hs h.mapped.inner hapart
    have hlength : ((c :: cs).take 255).length ≤ 255 := List.length_take_le 255 (c :: cs)
    obtain ⟨q, u, hcall, hu⟩ := @strtok_stepped l.inner ((c :: cs).take 255) l.inner l.inner
      { b.strtok with memory := m₁ } (if_pos l.inner_ne) l.inner_ne hstring (by omega) (by omega)
    have hinner : Apart l.inner 256 l.empty 1 := l.empty_inner
    obtain ⟨t, hrun, hlast, hin⟩ := @findTokens_eq l b.inodes r.inodes m₁ ((c :: cs).take 255) 256
      (((c :: cs).take 255).length + 1) 0 q u hu ((h.names.inner hframe).inner hu.frame)
      (by decide) (by omega) (by omega) (by omega)
    have hall : Frame l.inner 256 b.strtok.memory t.memory := (hframe.trans hu.frame).trans hlast
    have hfind : Ramfs.ramfsFindInode r (c :: cs) =
        ((Ramfs.findLoop r.inodes (((c :: cs).take 255).length + 1) 0 ((c :: cs).take 255)).1,
          { r with strtokNext := some ⟨.ramfsFindInode,
            (Ramfs.findLoop r.inodes (((c :: cs).take 255).length + 1) 0 ((c :: cs).take 255)).2⟩ }) := by
      rw [Ramfs.ramfsFindInode, if_neg (List.cons_ne_nil c cs)]
      rfl
    rw [hfind]
    refine ⟨{ b with strtok := t }, ?_, ⟨h.heap, h.mapped.frame hall hinner, h.names.inner hall⟩, hall, hin⟩
    simp [ramfsFindInode, hpath, hs.1, c.property, hcopy, hcall, hrun]

lemma parentOf_eq (h : Stands l b r) (hs : StringAt b.strtok.memory path s)
    (htemp : Apart l.temp 256 path (s.length + 1)) :
    ∃ found r' p b', r.ramfsFindInode (Ramfs.splitPath s).1 = (found, r') ∧
      parentOf l b path = some (found, p, b') ∧ Stands l b' r' ∧
      StringAt b'.strtok.memory p (Ramfs.splitPath s).2 ∧
      (l.temp ≤ p ∧ p + (Ramfs.splitPath s).2.length < l.temp + 256) ∧
      l.Kept b.strtok.memory b'.strtok.memory ∧ ∀ i, found = some i → i < ramfsMaxFiles := by
  obtain ⟨d, p, m₁, hsplit, hstrings⟩ := splitPath_spec hs h.mapped htemp
  have hstands : Stands l (b.setMemory m₁) r :=
    ⟨h.heap, h.mapped.frame hstrings.frame l.empty_temp, h.names.temp hstrings.frame⟩
  obtain ⟨b', hfind, hstands', hframe, hin⟩ :=
    ramfsFindInode_eq hstands hstrings.dirnameAt hstrings.dir_ne hstrings.dir_apart
  refine ⟨(r.ramfsFindInode (Ramfs.splitPath s).1).1, (r.ramfsFindInode (Ramfs.splitPath s).1).2, p, b',
    rfl, ?_, hstands', hframe.stringAt hstrings.basenameAt hstrings.base_apart,
    hstrings.base_inside, (Layout.kept_temp hstrings.frame).trans (Layout.kept_inner hframe), hin⟩
  simp [parentOf, hsplit, hfind]

end RamfsBytes

end Veni.Filesystem
