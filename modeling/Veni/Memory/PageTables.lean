import Veni.Lib.Transition
import Veni.Memory.Vmm

/-! The page tables refine a partial map from virtual page numbers to frames. -/

namespace Veni.Memory.Vmm

open Veni.Lib Transition

lemma entry_present {f : BitVec 32} : (f ||| pdePresent ||| pdeRw) &&& pdePresent ≠ 0#32 := by
  intro h
  have hbit := congrArg (fun x => x.getLsbD 0) h
  simp [pdePresent] at hbit

lemma entry_base {f : BitVec 32} (hf : f.toNat % 4096 = 0) :
    (f ||| pdePresent ||| pdeRw) &&& ~~~0xFFF#32 = f := by
  have hor : f ||| pdePresent ||| pdeRw = PackedWord.base 12 f ||| (pdePresent ||| pdeRw) := by
    rw [PackedWord.base_eq_self 12 hf, BitVec.or_assoc]
  have hpack := PackedWord.base_pack 12 f (f := pdePresent ||| pdeRw) (by decide)
  rw [hor]
  exact hpack.trans (PackedWord.base_eq_self 12 hf)

lemma Tables.entries_ne {v : Vmm} (h : Tables v) {i j k : ℕ} (hi : i < 1024) (hj : j < 1024)
    (hk : k < 1024) (hp : v.present i = true) (x : BitVec 32) :
    (v.setEntry (v.tableAt i) j x).entries v.kernelDirectory k = v.entries v.kernelDirectory k := by
  rw [entries_setEntry v x (tableAt_aligned v i) h.aligned hj hk]
  simp [h.directory_ne i hi hp]

lemma Tables.setEntry {v : Vmm} (h : Tables v) {i j : ℕ} (hi : i < 1024) (hj : j < 1024)
    (hp : v.present i = true) (x : BitVec 32) :
    Tables (v.setEntry (v.tableAt i) j x) ∧
      ∀ k < 1024, (v.setEntry (v.tableAt i) j x).present k = v.present k ∧
        (v.setEntry (v.tableAt i) j x).tableAt k = v.tableAt k := by
  have hsame : ∀ k < 1024, (v.setEntry (v.tableAt i) j x).present k = v.present k ∧
      (v.setEntry (v.tableAt i) j x).tableAt k = v.tableAt k := by
    intro k hk
    simp only [present, tableAt, setEntry_directory]
    have he := h.entries_ne hi hj hk hp x
    simp only [tableAt] at he
    rw [he]
    exact ⟨rfl, rfl⟩
  refine ⟨⟨h.aligned, fun k hk hkp => ?_, fun k hk l hl hkp hlp => ?_⟩, hsame⟩
  · rw [(hsame k hk).1] at hkp
    rw [(hsame k hk).2]
    exact h.directory_ne k hk hkp
  · rw [(hsame k hk).1] at hkp
    rw [(hsame l hl).1] at hlp
    rw [(hsame k hk).2, (hsame l hl).2]
    exact h.injective k hk l hl hkp hlp

lemma Tables.walk_setEntry {v : Vmm} (h : Tables v) {i j : ℕ} (hi : i < 1024) (hj : j < 1024)
    (hp : v.present i = true) (x : BitVec 32) {page : ℕ} (hpage : page < 2 ^ 20) :
    (v.setEntry (v.tableAt i) j x).walk page =
      if page = i * 1024 + j then
        if x &&& ptePresent = 0#32 then none else some (x &&& ~~~0xFFF#32)
      else v.walk page := by
  have hdiv : page / 1024 < 1024 := by omega
  have hmod : page % 1024 < 1024 := by omega
  obtain ⟨hpres, htable⟩ := (h.setEntry hi hj hp x).2 _ hdiv
  simp only [walk, hpres, htable]
  rw [entries_setEntry v x (tableAt_aligned v i) (tableAt_aligned v _) hj hmod]
  by_cases hpage' : page = i * 1024 + j
  · have hd : page / 1024 = i := by omega
    have hm : page % 1024 = j := by omega
    rw [if_pos hpage', hd, hm]
    simp [hp]
  · rw [if_neg hpage']
    cases hpp : v.present (page / 1024) with
    | false => simp
    | true =>
      have hne : ¬ (v.tableAt i = v.tableAt (page / 1024) ∧ j = page % 1024) := by
        rintro ⟨ht, hm⟩
        have := h.injective i hi _ hdiv hp hpp ht
        omega
      simp [hne]

lemma Tables.fresh {v : Vmm} (h : Tables v) {i f : ℕ} (hi : i < 1024)
    (hp : v.present i = false) (hf : PageFrame f) (hu : ¬ InUse v f) :
    let t := (v.setEntry v.kernelDirectory i
      (BitVec.ofNat 32 f ||| pdePresent ||| pdeRw)).clearEntries f
    Tables t ∧ t.present i = true ∧ t.tableAt i = f ∧
      (∀ k < 1024, k ≠ i → t.present k = v.present k ∧ t.tableAt k = v.tableAt k) ∧
      ∀ page < 2 ^ 20, t.walk page = v.walk page := by
  intro t
  have hfd : f ≠ v.kernelDirectory := fun he => hu (.inl he)
  have hfn : (BitVec.ofNat 32 f).toNat = f := by
    rw [BitVec.toNat_ofNat]
    exact Nat.mod_eq_of_lt hf.2
  have hentry : ∀ k < 1024, t.entries t.kernelDirectory k =
      if i = k then BitVec.ofNat 32 f ||| pdePresent ||| pdeRw
      else v.entries v.kernelDirectory k := by
    intro k hk
    simp only [t, clearEntries_directory, setEntry_directory]
    rw [entries_clearEntries _ hf.1 h.aligned hk, if_neg hfd,
      entries_setEntry v _ h.aligned h.aligned hi hk]
    simp
  have hself : t.present i = true ∧ t.tableAt i = f := by
    simp only [present, tableAt, hentry i hi, if_true]
    rw [entry_base (by rw [hfn]; exact hf.1), hfn]
    exact ⟨by simpa using entry_present, rfl⟩
  have hother : ∀ k < 1024, k ≠ i → t.present k = v.present k ∧ t.tableAt k = v.tableAt k := by
    intro k hk hki
    constructor
    · simp only [present, hentry k hk, if_neg (Ne.symm hki)]
    · simp only [tableAt, hentry k hk, if_neg (Ne.symm hki)]
  have hfresh : ∀ k < 1024, k ≠ i → t.present k = true → t.tableAt k ≠ f := by
    intro k hk hki hkp ht
    rw [(hother k hk hki).1] at hkp
    rw [(hother k hk hki).2] at ht
    exact hu (.inr ⟨k, hk, hkp, ht⟩)
  refine ⟨⟨by simpa [t] using h.aligned, fun k hk hkp => ?_, fun k hk l hl hkp hlp he => ?_⟩,
    hself.1, hself.2, hother, fun page hpage => ?_⟩
  · have hdir : t.kernelDirectory = v.kernelDirectory := by simp [t]
    rw [hdir]
    by_cases hki : k = i
    · rw [hki, hself.2]
      exact hfd
    · rw [(hother k hk hki).2]
      exact h.directory_ne k hk ((hother k hk hki).1 ▸ hkp)
  · by_cases hki : k = i
    · subst hki
      by_contra hne
      exact hfresh l hl (Ne.symm hne) hlp (he ▸ hself.2)
    · by_cases hli : l = i
      · subst hli
        exact absurd (he.trans hself.2) (hfresh k hk hki hkp)
      · rw [(hother k hk hki).2, (hother l hl hli).2] at he
        exact h.injective k hk l hl ((hother k hk hki).1 ▸ hkp) ((hother l hl hli).1 ▸ hlp) he
  · have hdiv : page / 1024 < 1024 := by omega
    have hmod : page % 1024 < 1024 := by omega
    by_cases hpi : page / 1024 = i
    · have hzero : t.entries f (page % 1024) = 0#32 := by
        rw [entries_clearEntries _ hf.1 hf.1 hmod, if_pos rfl]
      simp [walk, hpi, hself, hp, hzero]
    · simp only [walk, (hother _ hdiv hpi).1, (hother _ hdiv hpi).2]
      cases hpp : v.present (page / 1024) with
      | false => simp
      | true =>
        have hne := hfresh _ hdiv hpi ((hother _ hdiv hpi).1.trans hpp)
        rw [(hother _ hdiv hpi).2] at hne
        rw [entries_clearEntries _ hf.1 (tableAt_aligned v _) hmod, if_neg (Ne.symm hne),
          entries_setEntry v _ h.aligned (tableAt_aligned v _) hi hmod]
        simp [(h.directory_ne _ hdiv hpp).symm]

/-- The low bits of a table entry: the flags of `map_page`, `PTE_PRESENT` among them. -/
structure PteFlags where
  bits : BitVec 32
  lt : bits.toNat < 0x1000
  present : bits &&& ptePresent ≠ 0#32

inductive Op
  | map (virtualAddr physicalAddr : BitVec 32) (flags : PteFlags)
  | unmap (virtualAddr : BitVec 32)

def absExec (m : ℕ → Option (BitVec 32)) : Op → ℕ → Option (BitVec 32)
  | .map va pa _ => Function.update m (va.toNat / 4096) (some (pa &&& ~~~0xFFF#32))
  | .unmap va => Function.update m (va.toNat / 4096) none

def identityMap (page : ℕ) : Option (BitVec 32) :=
  if page < 1024 then some (BitVec.ofNat 32 (page * pageSize)) else none

structure Refines (v : Vmm) (m : ℕ → Option (BitVec 32)) : Prop where
  tables : Tables v
  walk_eq : ∀ page < 2 ^ 20, v.walk page = m page

lemma PteFlags.entry_present (pa : BitVec 32) (flags : PteFlags) :
    ((pa &&& ~~~0xFFF#32) ||| flags.bits) &&& ptePresent ≠ 0#32 := by
  intro h
  apply flags.present
  apply BitVec.eq_of_getLsbD_eq
  intro i hi
  have hbit := congrArg (fun x => x.getLsbD i) h
  simp only [BitVec.getLsbD_and, BitVec.getLsbD_or] at hbit ⊢
  cases hp : ptePresent.getLsbD i with
  | false => simp
  | true =>
    rw [hp, Bool.and_true, BitVec.getLsbD_zero] at hbit
    simpa using (Bool.or_eq_false_iff.mp hbit).2

lemma PteFlags.entry_base (pa : BitVec 32) (flags : PteFlags) :
    ((pa &&& ~~~0xFFF#32) ||| flags.bits) &&& ~~~0xFFF#32 = pa &&& ~~~0xFFF#32 :=
  PackedWord.base_pack 12 pa flags.lt

lemma Refines.setEntry {v : Vmm} {m : ℕ → Option (BitVec 32)} (h : Refines v m) (va : BitVec 32)
    (hp : v.present (pdIndex va) = true) (x : BitVec 32) :
    Refines (v.setEntry (v.tableAt (pdIndex va)) (ptIndex va) x)
      (Function.update m (va.toNat / 4096)
        (if x &&& ptePresent = 0#32 then none else some (x &&& ~~~0xFFF#32))) := by
  have hlt := page_lt va
  have hi := pdIndex_lt va
  have hj := ptIndex_lt va
  refine ⟨(h.tables.setEntry hi hj hp x).1, fun page hpage => ?_⟩
  have hsplit : pdIndex va * 1024 + ptIndex va = va.toNat / 4096 := by
    rw [pdIndex_eq, ptIndex_eq]
    omega
  rw [h.tables.walk_setEntry hi hj hp x hpage, hsplit, Function.update_apply, h.walk_eq page hpage]

lemma Refines.unmap {v : Vmm} {m : ℕ → Option (BitVec 32)} (h : Refines v m) (va : BitVec 32) :
    Refines (v.unmapPage va) (Function.update m (va.toNat / 4096) none) := by
  simp only [unmapPage]
  cases hp : v.present (pdIndex va) with
  | true => simpa using h.setEntry va hp 0#32
  | false =>
    simp only [Bool.false_eq_true, if_false]
    refine ⟨h.tables, fun page hpage => ?_⟩
    rw [Function.update_apply]
    split
    · next he =>
      rw [pdIndex_eq] at hp
      simp [walk, he, hp]
    · exact h.walk_eq page hpage

section Allocator

variable {α : Type*} (pmmAllocPage : α → ℕ × α)

def exec (s : Vmm × α) : Op → Vmm × α
  | .map va pa flags => mapPage pmmAllocPage s va pa flags.bits
  | .unmap va => (s.1.unmapPage va, s.2)

/-- The call of `pmm_alloc_page`, if the operation makes one, returns a frame that neither the
directory nor a table occupies. -/
def FreshTable (s : Vmm × α) (op : Op) (_ : Vmm × α) : Prop :=
  ∀ va pa flags, op = .map va pa flags → s.1.present (pdIndex va) = false →
    PageFrame (pmmAllocPage s.2).1 ∧ ¬ InUse s.1 (pmmAllocPage s.2).1

lemma createTable_eq (s : Vmm × α) (slot : ℕ) (h : PageFrame (pmmAllocPage s.2).1) :
    createTable pmmAllocPage s slot =
      ((s.1.setEntry s.1.kernelDirectory slot
        (BitVec.ofNat 32 (pmmAllocPage s.2).1 ||| pdePresent ||| pdeRw)).clearEntries
          (pmmAllocPage s.2).1, (pmmAllocPage s.2).2) := by
  have hn : (BitVec.ofNat 32 (pmmAllocPage s.2).1).toNat = (pmmAllocPage s.2).1 := by
    rw [BitVec.toNat_ofNat]
    exact Nat.mod_eq_of_lt h.2
  have hbase : BitVec.ofNat 32 (pmmAllocPage s.2).1 &&& ~~~0xFFF#32 =
      BitVec.ofNat 32 (pmmAllocPage s.2).1 :=
    PackedWord.base_eq_self 12 (by rw [hn]; exact h.1)
  simp only [createTable, hbase, hn]

variable {pmmAllocPage}

lemma Refines.map {s : Vmm × α} {m : ℕ → Option (BitVec 32)} (h : Refines s.1 m)
    (va pa : BitVec 32) (flags : PteFlags)
    {t : Vmm × α} (hf : FreshTable pmmAllocPage s (.map va pa flags) t) :
    Refines (mapPage pmmAllocPage s va pa flags.bits).1
      (Function.update m (va.toNat / 4096) (some (pa &&& ~~~0xFFF#32))) := by
  have hset : ∀ v : Vmm, Refines v m → v.present (pdIndex va) = true →
      Refines (v.setEntry (v.tableAt (pdIndex va)) (ptIndex va)
        ((pa &&& ~~~0xFFF#32) ||| flags.bits))
        (Function.update m (va.toNat / 4096) (some (pa &&& ~~~0xFFF#32))) := by
    intro v hv hp
    have hr := hv.setEntry va hp ((pa &&& ~~~0xFFF#32) ||| flags.bits)
    rwa [if_neg (flags.entry_present pa), flags.entry_base pa] at hr
  simp only [mapPage]
  cases hp : s.1.present (pdIndex va) with
  | true => simpa using hset s.1 h hp
  | false =>
    obtain ⟨hframe, hunused⟩ := hf va pa flags rfl hp
    have hi := pdIndex_lt va
    have hfresh := h.tables.fresh hi hp hframe hunused
    simp only [Bool.false_eq_true, if_false, createTable_eq pmmAllocPage s _ hframe]
    exact hset _ ⟨hfresh.1, fun page hpage =>
      (hfresh.2.2.2.2 page hpage).trans (h.walk_eq page hpage)⟩ hfresh.2.1

lemma Refines.exec {s : Vmm × α} {m : ℕ → Option (BitVec 32)} (h : Refines s.1 m) (op : Op)
    {t : Vmm × α} (hf : FreshTable pmmAllocPage s op t) : Refines (exec pmmAllocPage s op).1 (absExec m op) := by
  cases op with
  | map va pa flags => exact h.map va pa flags hf
  | unmap va => exact h.unmap va

lemma run_refines (s : Vmm × α) (m : ℕ → Option (BitVec 32)) (ops : List Op) (h : Refines s.1 m)
    (hf : Along (Steps (Vmm.exec pmmAllocPage)) (FreshTable pmmAllocPage) s ops) :
    Refines (ops.foldl (Vmm.exec pmmAllocPage) s).1 (ops.foldl absExec m) := by
  induction ops generalizing s m with
  | nil => exact h
  | cons op ops ih => exact ih _ _ (h.exec op (hf _ rfl).1) (hf _ rfl).2

lemma emptyDirectory_absent (memory : ℕ → BitVec 32) (a : α) (h : PageFrame (pmmAllocPage a).1)
    {i : ℕ} (hi : i < 1024) : (emptyDirectory pmmAllocPage memory a).1.present i = false := by
  simp only [present, emptyDirectory, clearEntries_directory]
  rw [entries_clearEntries _ h.1 h.1 hi]
  simp

lemma emptyDirectory_refines (memory : ℕ → BitVec 32) (a : α)
    (h : PageFrame (pmmAllocPage a).1) :
    Refines (emptyDirectory pmmAllocPage memory a).1 (fun _ => none) := by
  have hnone : ∀ i < 1024, (emptyDirectory pmmAllocPage memory a).1.present i = false :=
    fun i hi => emptyDirectory_absent memory a h hi
  refine ⟨⟨by simpa [emptyDirectory] using h.1, fun i hi hp => ?_, fun i hi _ _ hp => ?_⟩,
    fun page hpage => ?_⟩
  · simp [hnone i hi] at hp
  · simp [hnone i hi] at hp
  · simp [walk, hnone (page / 1024) (by omega)]

end Allocator

def kernelFlags : PteFlags where
  bits := ptePresent ||| pteRw
  lt := by decide
  present := by decide

@[irreducible] def identityOps : List Op :=
  (List.range 1024).map fun i =>
    .map (BitVec.ofNat 32 (i * pageSize)) (BitVec.ofNat 32 (i * pageSize)) kernelFlags

lemma vmmInit_eq {α : Type*} (pmmAllocPage : α → ℕ × α) (memory : ℕ → BitVec 32) (a : α) :
    vmmInit pmmAllocPage memory a =
      identityOps.foldl (exec pmmAllocPage) (emptyDirectory pmmAllocPage memory a) := by
  unfold identityOps
  rw [List.foldl_map]
  rfl

lemma identityOps_map : identityOps.foldl absExec (fun _ => none) = identityMap := by
  have hupto : ∀ n ≤ 1024, ((List.range n).map fun i => Op.map (BitVec.ofNat 32 (i * pageSize))
      (BitVec.ofNat 32 (i * pageSize)) kernelFlags).foldl absExec (fun _ => none) =
        fun page => if page < n then some (BitVec.ofNat 32 (page * pageSize)) else none := by
    intro n hn
    induction n with
    | zero => rfl
    | succ n ih =>
      rw [List.range_succ, List.map_append, List.foldl_append, ih (by omega)]
      have hval : (BitVec.ofNat 32 (n * pageSize)).toNat = n * pageSize := by
        rw [BitVec.toNat_ofNat]
        exact Nat.mod_eq_of_lt (by simp only [pageSize]; omega)
      have hbase : BitVec.ofNat 32 (n * pageSize) &&& ~~~0xFFF#32 =
          BitVec.ofNat 32 (n * pageSize) :=
        PackedWord.base_eq_self 12 (by rw [hval]; simp only [pageSize]; omega)
      have hdiv : n * pageSize / 4096 = n := by simp only [pageSize]; omega
      funext page
      simp only [List.map_cons, List.map_nil, List.foldl_cons, List.foldl_nil, absExec, hval, hbase,
        hdiv, Function.update_apply]
      by_cases he : page = n
      · simp [he]
      · have hiff : page < n + 1 ↔ page < n := by omega
        simp [he, hiff]
  unfold identityOps
  exact hupto 1024 le_rfl

end Veni.Memory.Vmm
