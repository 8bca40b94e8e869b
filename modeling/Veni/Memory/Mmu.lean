import Veni.Lib.TranslationCache
import Veni.Memory.KernelMemory

/-! The processor's caches of translations while `map_page` and `unmap_page` of `kernel/kernel/memory/vmm.c`
change the tables, one store at a time. -/

namespace Veni.Memory.Vmm

open Veni.Lib Transition TranslationCache Relation

abbrev Page := Fin (2 ^ 20)

def pageOf (virtualAddr : BitVec 32) : Page := ⟨virtualAddr.toNat / 4096, page_lt virtualAddr⟩

abbrev Mmu := Caches (Fin 1024) (BitVec 32) Page (BitVec 32)

def view (v : Vmm) : TranslationCache.Tables (Fin 1024) (BitVec 32) Page (BitVec 32) where
  index page := ⟨page / 1024, by omega⟩
  upper i := if v.present i then some (v.entries v.kernelDirectory i) else none
  lower entry page :=
    let pte := v.entries (entry &&& ~~~0xFFF#32).toNat (page % 1024)
    if pte &&& ptePresent = 0#32 then none else some (pte &&& ~~~0xFFF#32)

lemma view_walk (v : Vmm) (page : Page) : v.view.walk page = v.walk page := by
  simp only [TranslationCache.Tables.walk, view, walk, tableAt]
  cases v.present (page / 1024) with
  | true => rfl
  | false => rfl

def tableStores (newTable : BitVec 32) (slot : ℕ) : List (Vmm → Vmm) :=
  (fun v => v.setEntry v.kernelDirectory slot (newTable ||| pdePresent ||| pdeRw)) ::
    (List.range 1024).map fun i v => v.setEntry (newTable &&& ~~~0xFFF#32).toNat i 0#32

def entryStore (virtualAddr entry : BitVec 32) (v : Vmm) : Vmm :=
  v.setEntry (v.tableAt (pdIndex virtualAddr)) (ptIndex virtualAddr) entry

section Allocator

variable {α : Type*} (pmmAllocPage : α → ℕ × α)

def stores (s : Vmm × α) : Op → List (Vmm → Vmm)
  | .map va pa flags =>
    (if s.1.present (pdIndex va) then []
      else tableStores (BitVec.ofNat 32 (pmmAllocPage s.2).1) (pdIndex va)) ++
        [entryStore va ((pa &&& ~~~0xFFF#32) ||| flags.bits)]
  | .unmap va => if s.1.present (pdIndex va) then [entryStore va 0#32] else []

def invlpg (s : Vmm × α) (op : Op) (c : Mmu) : Mmu :=
  match op with
  | .map va _ _ => c.invalidate (pageOf va)
  | .unmap va => if s.1.present (pdIndex va) then c.invalidate (pageOf va) else c

/-- A call, while the processor caches what it reads in the tables at any moment. -/
def Step (s : (Vmm × α) × Mmu) (op : Op) (t : (Vmm × α) × Mmu) : Prop :=
  t.1.2 = (exec pmmAllocPage s.1 op).2 ∧
    ∃ c, Executes view (stores pmmAllocPage s.1 op) s.1.1 s.2 t.1.1 c ∧
      ReflTransGen (Moves t.1.1.view) (invlpg s.1 op c) t.2

/-- Every access to a page goes where the tables say, and faults where they say nothing. -/
def Translated (s : (Vmm × α) × Mmu) : Prop :=
  ∀ page f, s.2.Translates s.1.1.view page f ↔ s.1.1.walk page = some f

/-- The frame of a new table has no word that looks like an entry, but for the one to be written. -/
def CleanTable (s : Vmm × α) (op : Op) (_ : Vmm × α) : Prop :=
  ∀ va pa flags, op = .map va pa flags → s.1.present (pdIndex va) = false →
    ∀ j < 1024, j ≠ ptIndex va → s.1.entries (pmmAllocPage s.2).1 j &&& ptePresent = 0#32

lemma stores_fold (s : Vmm × α) (op : Op) :
    (stores pmmAllocPage s op).foldl (fun v f => f v) s.1 = (exec pmmAllocPage s op).1 := by
  cases op with
  | map va pa flags =>
    simp only [stores, exec, mapPage]
    cases s.1.present (pdIndex va) with
    | true => rfl
    | false =>
      have hclear : ∀ (v : Vmm) (b : ℕ),
          (List.range 1024).foldl (fun v i => v.setEntry b i 0#32) v = v.clearEntries b := by
        intro v b
        unfold clearEntries
        rfl
      simp only [Bool.false_eq_true, if_false, tableStores, List.cons_append, List.foldl_cons,
        List.foldl_append, List.foldl_map, List.foldl_nil, hclear]
      rfl
  | unmap va =>
    simp only [stores, exec, unmapPage]
    cases s.1.present (pdIndex va) with
    | true => rfl
    | false => rfl

variable {pmmAllocPage} {s t : (Vmm × α) × Mmu} {op : Op}

lemma Step.exec (h : Step pmmAllocPage s op t) : t.1 = exec pmmAllocPage s.1 op := by
  obtain ⟨hnext, c, hstores, _⟩ := h
  refine Prod.ext ?_ hnext
  rw [hstores.state]
  exact stores_fold pmmAllocPage s.1 op

end Allocator

lemma Tables.keeps_setEntry {v : Vmm} (h : Tables v) {i j : ℕ} (hi : i < 1024) (hj : j < 1024)
    (hp : v.present i = true) (x : BitVec 32) {pending : Set Page}
    (hword : ∀ page : Page, page.val = i * 1024 + j → page ∉ pending → v.walk page = none) :
    Keeps v.view (v.setEntry (v.tableAt i) j x).view pending := by
  refine ⟨fun k u hu => ?_, fun page hpage f hwalk => ?_⟩
  · simp only [view] at hu ⊢
    rw [setEntry_directory, h.entries_ne hi hj k.isLt hp x, ((h.setEntry hi hj hp x).2 k k.isLt).1]
    exact hu
  · rw [view_walk] at hwalk ⊢
    by_cases hat : page.val = i * 1024 + j
    · rw [hword page hat hpage] at hwalk
      cases hwalk
    · rw [h.walk_setEntry hi hj hp x page.isLt, if_neg hat]
      exact hwalk

structure Building (slot word : ℕ) (f : ℕ) (v : Vmm) : Prop where
  tables : Tables v
  present : v.present slot = true
  table : v.tableAt slot = f
  clean : ∀ j < 1024, j ≠ word → v.entries f j &&& ptePresent = 0#32

lemma Building.store {slot word f : ℕ} {v : Vmm} (h : Building slot word f v) (hslot : slot < 1024)
    {i : ℕ} (hi : i < 1024) {x : BitVec 32} (hx : i = word ∨ x = 0#32) {page : Page}
    (hpage : page.val = slot * 1024 + word) :
    Building slot word f (v.setEntry f i x) ∧ Keeps v.view (v.setEntry f i x).view {page} := by
  have hset := h.tables.setEntry hslot hi h.present x
  have hsame := hset.2 slot hslot
  have haligned : f % 4096 = 0 := by
    rw [← h.table]
    exact tableAt_aligned v slot
  rw [← h.table]
  refine ⟨⟨hset.1, hsame.1.trans h.present, hsame.2, fun j hj hne => ?_⟩, ?_⟩
  · rw [h.table, entries_setEntry v x haligned haligned hi hj]
    by_cases hij : f = f ∧ i = j
    · rw [if_pos hij, hx.resolve_left fun hw => hne (hij.2.symm.trans hw)]
      exact BitVec.zero_and
    · rw [if_neg hij]
      exact h.clean j hj hne
  · apply h.tables.keeps_setEntry hslot hi h.present
    intro other hother hpending
    have hne : i ≠ word := by
      intro hw
      apply hpending
      rw [Set.mem_singleton_iff]
      apply Fin.ext
      rw [hother, hpage, hw]
    have hdiv : other.val / 1024 = slot := by omega
    have hmod : other.val % 1024 = i := by omega
    have hclean := h.clean i hi hne
    rw [← h.table] at hclean
    simp only [walk, hdiv, hmod, hclean, if_true, ite_self]

lemma Tables.directory_store {v : Vmm} (h : Tables v) {i f : ℕ} (hi : i < 1024)
    (hp : v.present i = false) (hf : PageFrame f) (hu : ¬ InUse v f) :
    let v' := v.setEntry v.kernelDirectory i (BitVec.ofNat 32 f ||| pdePresent ||| pdeRw)
    Tables v' ∧ v'.present i = true ∧ v'.tableAt i = f ∧ Keeps v.view v'.view ∅ ∧
      ∀ j < 1024, v'.entries f j = v.entries f j := by
  intro v'
  obtain ⟨htables, hpresent, htable, hother, _⟩ := h.fresh hi hp hf hu
  have hne : f ≠ v.kernelDirectory := fun he => hu (Or.inl he)
  have hdir : ∀ k < 1024, v'.entries v.kernelDirectory k =
      (v'.clearEntries f).entries v.kernelDirectory k := by
    intro k hk
    rw [entries_clearEntries v' hf.1 h.aligned hk, if_neg hne]
  have hsame : ∀ k < 1024, (v'.clearEntries f).present k = v'.present k ∧
      (v'.clearEntries f).tableAt k = v'.tableAt k := by
    intro k hk
    simp only [Vmm.present, tableAt, clearEntries_directory]
    have hk' := hdir k hk
    simp only [v', setEntry_directory] at hk' ⊢
    rw [hk']
    exact ⟨rfl, rfl⟩
  have hwords : ∀ b, b % 4096 = 0 → b ≠ v.kernelDirectory → ∀ j < 1024,
      v'.entries b j = v.entries b j := by
    intro b hb hbd j hj
    rw [entries_setEntry v _ h.aligned hb hi hj, if_neg fun he => hbd he.1.symm]
  refine ⟨⟨h.aligned, fun k hk hkp => ?_, fun k hk l hl hkp hlp he => ?_⟩, ?_, ?_,
    ⟨fun k u hk => ?_, fun page _ x hwalk => ?_⟩, hwords f hf.1 hne⟩
  · rw [← (hsame k hk).1] at hkp
    rw [← (hsame k hk).2]
    have hk' := htables.directory_ne k hk hkp
    rw [clearEntries_directory] at hk'
    exact hk'
  · rw [← (hsame k hk).1] at hkp
    rw [← (hsame l hl).1] at hlp
    rw [← (hsame k hk).2, ← (hsame l hl).2] at he
    exact htables.injective k hk l hl hkp hlp he
  · exact (hsame i hi).1.symm.trans hpresent
  · exact (hsame i hi).2.symm.trans htable
  · simp only [view] at hk ⊢
    cases hkp : v.present k with
    | false =>
      rw [hkp] at hk
      cases hk
    | true =>
      have hki : k.val ≠ i := fun he => Bool.false_ne_true (hp.symm.trans (he ▸ hkp))
      have hentry : v'.entries v'.kernelDirectory k = v.entries v.kernelDirectory k := by
        rw [setEntry_directory, entries_setEntry v _ h.aligned h.aligned hi k.isLt,
          if_neg fun he => hki he.2.symm]
      rw [← (hsame k k.isLt).1, (hother k k.isLt hki).1, hentry]
      exact hk
  · rw [view_walk] at hwalk ⊢
    have hdiv : page.val / 1024 < 1024 := by omega
    cases hpp : v.present (page.val / 1024) with
    | false =>
      rw [walk, hpp] at hwalk
      cases hwalk
    | true =>
      have hpi : page.val / 1024 ≠ i := fun he => Bool.false_ne_true (hp.symm.trans (he ▸ hpp))
      have hkeep := hother _ hdiv hpi
      have hentry := hwords (v.tableAt (page.val / 1024)) (tableAt_aligned v _)
        (h.directory_ne _ hdiv hpp) (page.val % 1024) (by omega)
      rw [← hwalk, walk, walk, ← (hsame _ hdiv).1, ← (hsame _ hdiv).2, hkeep.1, hkeep.2, hentry]

section Allocator

variable {α : Type*} {pmmAllocPage : α → ℕ × α} {s t : (Vmm × α) × Mmu} {m : ℕ → Option (BitVec 32)} {op : Op}

lemma pageOf_eq (va : BitVec 32) : (pageOf va).val = pdIndex va * 1024 + ptIndex va := by
  rw [pdIndex_eq, ptIndex_eq]
  change va.toNat / 4096 = _
  omega

lemma Building.entryStore {va : BitVec 32} {f : ℕ} {v : Vmm} (h : Building (pdIndex va) (ptIndex va) f v)
    (entry : BitVec 32) : Building (pdIndex va) (ptIndex va) f (entryStore va entry v) ∧
      Keeps v.view (Vmm.entryStore va entry v).view {pageOf va} := by
  rw [Vmm.entryStore, h.table]
  exact h.store (pdIndex_lt va) (ptIndex_lt va) (Or.inl rfl) (pageOf_eq va)

lemma Refines.executes_entry {v u : Vmm} {c d : Mmu} (h : Refines v m) {va entry : BitVec 32}
    (hp : v.present (pdIndex va) = true) (hc : Coherent v.view c ∅)
    (hrun : Executes view [entryStore va entry] v c u d) : Coherent u.view d {pageOf va} := by
  have hkeeps : Keeps v.view (entryStore va entry v).view {pageOf va} := by
    apply h.tables.keeps_setEntry (pdIndex_lt va) (ptIndex_lt va) hp
    intro page hpage hpending
    exact (hpending (Fin.ext (hpage.trans (pageOf_eq va).symm))).elim
  cases hrun with
  | store hmoves hrest =>
    cases hrest with
    | done hlast =>
      have hbefore := hc.moves hmoves
      exact (Coherent.store ⟨hbefore.upper, fun k _ => hbefore.lower k (Set.notMem_empty k)⟩
        hkeeps).moves hlast

lemma Refines.executes_table {v u : Vmm} {c d : Mmu} (h : Refines v m) {va entry : BitVec 32} {f : ℕ}
    (hp : v.present (pdIndex va) = false) (hf : PageFrame f) (hu : ¬ InUse v f)
    (hclean : ∀ j < 1024, j ≠ ptIndex va → v.entries f j &&& ptePresent = 0#32)
    (hc : Coherent v.view c ∅)
    (hrun : Executes view (tableStores (BitVec.ofNat 32 f) (pdIndex va) ++ [entryStore va entry])
      v c u d) : Coherent u.view d {pageOf va} := by
  obtain ⟨htables, hpresent, htable, hkeeps, hwords⟩ :=
    h.tables.directory_store (pdIndex_lt va) hp hf hu
  have hbase : (BitVec.ofNat 32 f &&& ~~~0xFFF#32).toNat = f := by
    have hn : (BitVec.ofNat 32 f).toNat = f := by
      rw [BitVec.toNat_ofNat]
      exact Nat.mod_eq_of_lt hf.2
    have hself : BitVec.ofNat 32 f &&& ~~~0xFFF#32 = BitVec.ofNat 32 f :=
      PackedWord.base_eq_self 12 (by rw [hn]; exact hf.1)
    rw [hself, hn]
  cases hrun with
  | store hmoves hrest =>
    have hstored := (hc.moves hmoves).store hkeeps
    have hbuilding : Building (pdIndex va) (ptIndex va) f (v.setEntry v.kernelDirectory (pdIndex va)
        (BitVec.ofNat 32 f ||| pdePresent ||| pdeRw)) :=
      ⟨htables, hpresent, htable, fun j hj hne => by rw [hwords j hj]; exact hclean j hj hne⟩
    have hstores : ∀ g ∈ ((List.range 1024).map fun i (w : Vmm) =>
        w.setEntry (BitVec.ofNat 32 f &&& ~~~0xFFF#32).toNat i 0#32) ++ [entryStore va entry],
        ∀ w, Building (pdIndex va) (ptIndex va) f w →
          Building (pdIndex va) (ptIndex va) f (g w) ∧ Keeps w.view (g w).view {pageOf va} := by
      intro g hg w hw
      obtain hclear | hentry := List.mem_append.mp hg
      · obtain ⟨i, hi, rfl⟩ := List.mem_map.mp hclear
        rw [hbase]
        exact hw.store (pdIndex_lt va) (List.mem_range.mp hi) (Or.inr rfl) (pageOf_eq va)
      · rw [List.mem_singleton.mp hentry]
        exact hw.entryStore entry
    exact (Executes.coherent hstores hrest hbuilding
      ⟨hstored.upper, fun k _ => hstored.lower k (Set.notMem_empty k)⟩).2

lemma Refines.step_coherent (h : Refines s.1.1 m) (hf : FreshTable pmmAllocPage s.1 op t.1)
    (hclean : CleanTable pmmAllocPage s.1 op t.1) (hc : Coherent s.1.1.view s.2 ∅)
    (hstep : Step pmmAllocPage s op t) : Coherent t.1.1.view t.2 ∅ := by
  obtain ⟨_, c, hstores, hmoves⟩ := hstep
  apply Coherent.moves _ hmoves
  cases op with
  | map va pa flags =>
    apply Coherent.invalidate
    simp only [stores] at hstores
    cases hp : s.1.1.present (pdIndex va) with
    | true =>
      rw [hp] at hstores
      exact h.executes_entry hp hc hstores
    | false =>
      rw [hp] at hstores
      obtain ⟨hframe, hunused⟩ := hf va pa flags rfl hp
      exact h.executes_table hp hframe hunused (hclean va pa flags rfl hp) hc hstores
  | unmap va =>
    simp only [stores] at hstores
    simp only [invlpg]
    cases hp : s.1.1.present (pdIndex va) with
    | true =>
      rw [hp] at hstores
      exact (h.executes_entry hp hc hstores).invalidate
    | false =>
      rw [hp] at hstores
      have hnone : ∀ f ∈ ([] : List (Vmm → Vmm)), ∀ v, True →
          True ∧ Keeps v.view (f v).view (∅ : Set Page) :=
        fun f hf => (List.not_mem_nil hf).elim
      exact (Executes.coherent hnone hstores trivial hc).2

lemma Refines.stale_of_not_clean (h : Refines s.1.1 m) {u : Vmm × α}
    (hf : FreshTable pmmAllocPage s.1 op u) (hdirty : ¬ CleanTable pmmAllocPage s.1 op u) :
    ∃ t, Step pmmAllocPage s op t ∧ ¬ Translated t := by
  simp only [CleanTable, not_forall] at hdirty
  obtain ⟨va, pa, flags, rfl, hp, j, hj, hjne, hword⟩ := hdirty
  obtain ⟨hframe, hunused⟩ := hf va pa flags rfl hp
  obtain ⟨_, hpresent, htable, _, hwords⟩ :=
    h.tables.directory_store (pdIndex_lt va) hp hframe hunused
  have hslot := pdIndex_lt va
  let page : Page := ⟨pdIndex va * 1024 + j, by omega⟩
  have hdiv : page.val / 1024 = pdIndex va := by
    change (pdIndex va * 1024 + j) / 1024 = _
    omega
  have hmod : page.val % 1024 = j := by
    change (pdIndex va * 1024 + j) % 1024 = _
    omega
  have hne : page ≠ pageOf va := by
    intro he
    have hval := congrArg Fin.val he
    rw [pageOf_eq] at hval
    exact hjne (Nat.add_left_cancel hval)
  have hread : (s.1.1.setEntry s.1.1.kernelDirectory (pdIndex va)
      (BitVec.ofNat 32 (pmmAllocPage s.1.2).1 ||| pdePresent ||| pdeRw)).view.walk page =
        some (s.1.1.entries (pmmAllocPage s.1.2).1 j &&& ~~~0xFFF#32) := by
    rw [view_walk, walk, hdiv, hmod, htable, hwords j hj, if_pos hpresent]
    exact if_neg hword
  have hstores : stores pmmAllocPage s.1 (.map va pa flags) =
      (fun v => v.setEntry v.kernelDirectory (pdIndex va)
        (BitVec.ofNat 32 (pmmAllocPage s.1.2).1 ||| pdePresent ||| pdeRw)) ::
      (((List.range 1024).map fun i (w : Vmm) =>
        w.setEntry (BitVec.ofNat 32 (pmmAllocPage s.1.2).1 &&& ~~~0xFFF#32).toNat i 0#32) ++
          [entryStore va ((pa &&& ~~~0xFFF#32) ||| flags.bits)]) := by
    simp only [stores, hp, Bool.false_eq_true, if_false, tableStores, List.cons_append]
  obtain ⟨d, hrun, hcached⟩ := executes_stale view
    (fun v => v.setEntry v.kernelDirectory (pdIndex va)
      (BitVec.ofNat 32 (pmmAllocPage s.1.2).1 ||| pdePresent ||| pdeRw))
    (((List.range 1024).map fun i (w : Vmm) =>
      w.setEntry (BitVec.ofNat 32 (pmmAllocPage s.1.2).1 &&& ~~~0xFFF#32).toNat i 0#32) ++
        [entryStore va ((pa &&& ~~~0xFFF#32) ||| flags.bits)]) s.2 hread
  have hend := stores_fold pmmAllocPage s.1 (.map va pa flags)
  rw [hstores, List.foldl_cons] at hend
  have hmapped := h.map va pa flags hf
  have hunmapped : (Vmm.exec pmmAllocPage s.1 (.map va pa flags)).1.walk page = none := by
    have hwalk := hmapped.walk_eq page page.isLt
    have hpage : page.val ≠ va.toNat / 4096 := fun he => hne (Fin.ext he)
    have hbefore : s.1.1.walk page = none := by
      rw [walk, hdiv, hp]
      rfl
    rw [Function.update_of_ne hpage, ← h.walk_eq page page.isLt, hbefore] at hwalk
    exact hwalk
  refine ⟨(Vmm.exec pmmAllocPage s.1 (.map va pa flags), d.invalidate (pageOf va)),
    ⟨rfl, d, ?_, .refl⟩, fun htranslated => ?_⟩
  · rw [hstores, ← hend]
    exact hrun
  · have hstale := (htranslated page _).mp (Or.inl ((Function.update_of_ne hne _ _).trans hcached))
    rw [hunmapped] at hstale
    cases hstale

lemma Refines.translated_iff {s : Vmm × α} {c : Mmu} {ops : List Op} (h : Refines s.1 m)
    (hc : Coherent s.1.view c ∅) (hf : Along (Steps (Vmm.exec pmmAllocPage)) (FreshTable pmmAllocPage) s ops) :
    Along (Step pmmAllocPage) (fun _ _ t => Translated t) (s, c) ops ↔
      Along (Steps (Vmm.exec pmmAllocPage)) (CleanTable pmmAllocPage) s ops := by
  induction ops generalizing s c m with
  | nil => exact Iff.rfl
  | cons op ops ih =>
    obtain ⟨hfresh, hrest⟩ := hf _ rfl
    have hnext := h.exec op hfresh
    constructor
    · intro htranslated u hu
      cases hu
      have hclean : CleanTable pmmAllocPage s op (Vmm.exec pmmAllocPage s op) := by
        by_contra hdirty
        obtain ⟨t, hstep, hstale⟩ := Refines.stale_of_not_clean (s := (s, c)) h hfresh hdirty
        exact hstale (htranslated t hstep).1
      refine ⟨hclean, ?_⟩
      have hstill := executes_still view (stores pmmAllocPage s op) s.1 c
      rw [stores_fold] at hstill
      have hstep : Step pmmAllocPage (s, c) op (Vmm.exec pmmAllocPage s op, invlpg s op c) :=
        ⟨rfl, c, hstill, .refl⟩
      have hcoherent := Refines.step_coherent (s := (s, c)) h hfresh hclean hc hstep
      exact (ih hnext hcoherent hrest).mp (htranslated _ hstep).2
    · intro hclean t hstep
      obtain ⟨hnow, hlater⟩ := hclean _ rfl
      have hexec := hstep.exec
      have hfresh' : FreshTable pmmAllocPage s op t.1 := hfresh
      have hcoherent := Refines.step_coherent (s := (s, c)) h hfresh' hnow hc hstep
      obtain ⟨t, d⟩ := t
      cases hexec
      refine ⟨fun page f => ?_, (ih hnext hcoherent hrest).mpr hlater⟩
      rw [hcoherent.translates_iff, view_walk]

end Allocator

/-- The same from `vmm_init` on, which loads `cr3` and so starts with nothing cached. -/
theorem translated_iff_clean {α : Type*} (pmmAllocPage : α → ℕ × α) (memory : ℕ → BitVec 32) (a : α)
    (hdir : PageFrame (pmmAllocPage a).1) (ops : List Op)
    (hf : Along (Steps (exec pmmAllocPage)) (FreshTable pmmAllocPage)
      (emptyDirectory pmmAllocPage memory a) (identityOps ++ ops)) :
    Along (Step pmmAllocPage) (fun _ _ t => Translated t)
        (vmmInit pmmAllocPage memory a, Caches.empty) ops ↔
      Along (Steps (exec pmmAllocPage)) (CleanTable pmmAllocPage) (vmmInit pmmAllocPage memory a) ops := by
  have hboot := @Run.of_exec _ _ (exec pmmAllocPage) (emptyDirectory pmmAllocPage memory a) identityOps
  have hr := run_refines _ _ identityOps (emptyDirectory_refines memory a hdir) hf.left
  have hrest := hf.right hboot
  rw [← vmmInit_eq] at hr hrest
  exact hr.translated_iff coherent_empty hrest

def Blank (v : Vmm) : Prop :=
  ∀ c, c % 4096 = 0 → ¬ InUse v c → ∀ j < 1024, v.entries c j &&& ptePresent = 0#32

lemma Tables.blank_setEntry {v : Vmm} (h : Tables v) (hb : Blank v) {i j : ℕ} (hi : i < 1024) (hj : j < 1024)
    (hp : v.present i = true) (x : BitVec 32) : Blank (v.setEntry (v.tableAt i) j x) := by
  intro c hc hout k hk
  have hsame := (h.setEntry hi hj hp x).2
  have hunused : ¬ InUse v c := by
    rintro (he | ⟨l, hl, hlp, hlt⟩)
    · exact hout (.inl he)
    · exact hout (.inr ⟨l, hl, (hsame l hl).1.trans hlp, (hsame l hl).2.trans hlt⟩)
  rw [entries_setEntry _ _ (tableAt_aligned v i) hc hj hk, if_neg]
  · exact hb c hc hunused k hk
  · rintro ⟨rfl, _⟩
    exact hunused (.inr ⟨i, hi, hp, rfl⟩)

lemma Tables.blank_fresh {v : Vmm} (h : Tables v) (hb : Blank v) {i f : ℕ} (hi : i < 1024)
    (hp : v.present i = false) (hf : PageFrame f) (hu : ¬ InUse v f) :
    Blank ((v.setEntry v.kernelDirectory i (BitVec.ofNat 32 f ||| pdePresent ||| pdeRw)).clearEntries f) := by
  obtain ⟨_, hpres, htable, hother, _⟩ := h.fresh hi hp hf hu
  intro c hc hout k hk
  have hne : f ≠ c := by
    rintro rfl
    exact hout (.inr ⟨i, hi, hpres, htable⟩)
  have hdir : v.kernelDirectory ≠ c := fun he => hout (.inl (by simp [← he]))
  have hunused : ¬ InUse v c := by
    rintro (he | ⟨l, hl, hlp, hlt⟩)
    · exact hdir he.symm
    · have hli : l ≠ i := by
        rintro rfl
        rw [hp] at hlp
        cases hlp
      exact hout (.inr ⟨l, hl, (hother l hl hli).1.trans hlp, (hother l hl hli).2.trans hlt⟩)
  rw [entries_clearEntries _ hf.1 hc hk, if_neg hne, entries_setEntry _ _ h.aligned hc hi hk,
    if_neg fun hn => hdir hn.1]
  exact hb c hc hunused k hk

section Blank

variable {α : Type*} {pmmAllocPage : α → ℕ × α} {s : Vmm × α}

lemma Tables.blank_exec (h : Tables s.1) (hb : Blank s.1) {op : Op} {t : Vmm × α}
    (hf : FreshTable pmmAllocPage s op t) : Blank (exec pmmAllocPage s op).1 := by
  cases op with
  | map va pa flags =>
    have hi := pdIndex_lt va
    have hj := ptIndex_lt va
    simp only [exec, mapPage]
    cases hp : s.1.present (pdIndex va) with
    | true => exact h.blank_setEntry hb hi hj hp _
    | false =>
      obtain ⟨hframe, hunused⟩ := hf va pa flags rfl hp
      obtain ⟨htables, hpres, _⟩ := h.fresh hi hp hframe hunused
      simp only [Bool.false_eq_true, if_false, createTable_eq pmmAllocPage s _ hframe]
      exact htables.blank_setEntry (h.blank_fresh hb hi hp hframe hunused) hi hj hpres _
  | unmap va =>
    simp only [exec, unmapPage]
    split
    · next hp => exact h.blank_setEntry hb (pdIndex_lt va) (ptIndex_lt va) hp _
    · exact hb

lemma Refines.clean_of_blank {m : ℕ → Option (BitVec 32)} (h : Refines s.1 m) (hb : Blank s.1) {ops : List Op}
    (hf : Along (Steps (Vmm.exec pmmAllocPage)) (FreshTable pmmAllocPage) s ops) :
    Along (Steps (Vmm.exec pmmAllocPage)) (CleanTable pmmAllocPage) s ops := by
  induction ops generalizing s m with
  | nil => trivial
  | cons op ops ih =>
    rintro t rfl
    obtain ⟨hfresh, hrest⟩ := hf _ rfl
    refine ⟨fun va pa flags hop hp j hj _ => ?_, ih (h.exec op hfresh) (h.tables.blank_exec hb hfresh) hrest⟩
    obtain ⟨hframe, hunused⟩ := hfresh va pa flags hop hp
    exact hb _ hframe.1 hunused j hj

end Blank

theorem translated_iff_clean_heap : Along (Step Frames.alloc) (fun _ _ t => Translated t)
    (vmmInit Frames.alloc (fun _ => 8#32) (bootFrames (fun _ => 0) 0x110000 0x1000000), Caches.empty)
    [.map 0xD0000000#32 0x5000#32 kernelFlags, .unmap 0x1000#32] := by
  obtain ⟨hframe, howned, hx, hused, htotal⟩ := emptyDirectory_owned (fun _ => 0) 0x110000
    (by decide : 0x1000000 < 2 ^ 32) (by decide) (by decide) (fun _ => 8#32)
  have hroom : (emptyDirectory Frames.alloc (fun _ => 8#32)
      (bootFrames (fun _ => 0) 0x110000 0x1000000)).2.pmm.usedPages + (identityOps ++
        [Op.map 0xD0000000#32 0x5000#32 kernelFlags, .unmap 0x1000#32]).length ≤
      (emptyDirectory Frames.alloc (fun _ => 8#32)
        (bootFrames (fun _ => 0) 0x110000 0x1000000)).2.pmm.totalPages := by
    rw [hused, htotal, List.length_append, identityOps_length]
    decide
  have hfresh := (howned.run (howned.run_spends hx hroom).exhausted).2.2
  have hempty := emptyDirectory_refines (fun _ => 8#32) (bootFrames (fun _ => 0) 0x110000 0x1000000) hframe
  have hblank : Blank (emptyDirectory Frames.alloc (fun _ => 8#32)
      (bootFrames (fun _ => 0) 0x110000 0x1000000)).1 := by
    intro c hc hout j hj
    have hdir : (bootFrames (fun _ => 0) 0x110000 0x1000000).alloc.1 ≠ c :=
      fun he => hout (.inl (by simp [emptyDirectory, ← he]))
    have hword : (8#32 : BitVec 32) &&& ptePresent = 0#32 := by decide
    simp only [emptyDirectory]
    rw [entries_clearEntries _ hframe.1 hc hj, if_neg hdir]
    exact hword
  have hclean := (hempty.clean_of_blank hblank hfresh).right
    (@Run.of_exec _ _ (exec Frames.alloc) _ identityOps)
  rw [← vmmInit_eq] at hclean
  exact (translated_iff_clean Frames.alloc _ _ hframe _ hfresh).mpr hclean

end Veni.Memory.Vmm
