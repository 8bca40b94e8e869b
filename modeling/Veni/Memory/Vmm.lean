import Veni.Lib.PackedWord
import Veni.Memory.Pmm

/-! Two-level page tables kept in physical memory, `kernel/kernel/memory/vmm.c`. -/

namespace Veni.Memory

open Veni.Lib

def pdePresent : BitVec 32 := 0x1#32

def pdeRw : BitVec 32 := 0x2#32

def ptePresent : BitVec 32 := 0x1#32

def pteRw : BitVec 32 := 0x2#32

/-- `memory` is physical memory, one word for each byte address that is a multiple of 4. -/
structure Vmm where
  memory : ℕ → BitVec 32
  kernelDirectory : ℕ

namespace Vmm

def entries (v : Vmm) (base i : ℕ) : BitVec 32 := v.memory (base + 4 * i)

def setEntry (v : Vmm) (base i : ℕ) (x : BitVec 32) : Vmm :=
  { v with memory := Function.update v.memory (base + 4 * i) x }

@[irreducible] def clearEntries (v : Vmm) (base : ℕ) : Vmm :=
  (List.range 1024).foldl (fun v i => v.setEntry base i 0#32) v

def pdIndex (virtualAddr : BitVec 32) : ℕ := (virtualAddr >>> 22).toNat

def ptIndex (virtualAddr : BitVec 32) : ℕ := ((virtualAddr >>> 12) &&& 0x3FF#32).toNat

def present (v : Vmm) (i : ℕ) : Bool := v.entries v.kernelDirectory i &&& pdePresent != 0#32

def tableAt (v : Vmm) (i : ℕ) : ℕ := (v.entries v.kernelDirectory i &&& ~~~0xFFF#32).toNat

section Allocator

variable {α : Type*} (pmmAllocPage : α → ℕ × α)

def createTable (s : Vmm × α) (slot : ℕ) : Vmm × α :=
  let page := pmmAllocPage s.2
  let newTable := BitVec.ofNat 32 page.1
  let v := s.1.setEntry s.1.kernelDirectory slot (newTable ||| pdePresent ||| pdeRw)
  (v.clearEntries (newTable &&& ~~~0xFFF#32).toNat, page.2)

def mapPage (s : Vmm × α) (virtualAddr physicalAddr flags : BitVec 32) : Vmm × α :=
  let slot := pdIndex virtualAddr
  let t := if s.1.present slot then s else createTable pmmAllocPage s slot
  (t.1.setEntry (t.1.tableAt slot) (ptIndex virtualAddr) ((physicalAddr &&& ~~~0xFFF#32) ||| flags),
    t.2)

def emptyDirectory (memory : ℕ → BitVec 32) (a : α) : Vmm × α :=
  let page := pmmAllocPage a
  ((Vmm.mk memory page.1).clearEntries page.1, page.2)

def vmmInit (memory : ℕ → BitVec 32) (a : α) : Vmm × α :=
  (List.range 1024).foldl
    (fun s i => mapPage pmmAllocPage s (BitVec.ofNat 32 (i * pageSize))
      (BitVec.ofNat 32 (i * pageSize)) (ptePresent ||| pteRw))
    (emptyDirectory pmmAllocPage memory a)

end Allocator

def unmapPage (v : Vmm) (virtualAddr : BitVec 32) : Vmm :=
  let slot := pdIndex virtualAddr
  if v.present slot then v.setEntry (v.tableAt slot) (ptIndex virtualAddr) 0#32 else v

def getPhysicalAddress (v : Vmm) (virtualAddr : BitVec 32) : BitVec 32 :=
  let slot := pdIndex virtualAddr
  let offset := virtualAddr &&& 0xFFF#32
  if !v.present slot then 0#32
  else
    let entry := v.entries (v.tableAt slot) (ptIndex virtualAddr)
    if entry &&& ptePresent = 0#32 then 0#32 else (entry &&& ~~~0xFFF#32) ||| offset

lemma pdIndex_eq (a : BitVec 32) : pdIndex a = a.toNat / 4096 / 1024 := by
  simp only [pdIndex, BitVec.toNat_ushiftRight, Nat.shiftRight_eq_div_pow]
  omega

lemma ptIndex_eq (a : BitVec 32) : ptIndex a = a.toNat / 4096 % 1024 := by
  have h := PackedWord.toNat_offset 10 (a >>> 12)
  simp only [BitVec.toNat_ushiftRight, Nat.shiftRight_eq_div_pow] at h
  exact h

lemma page_lt (a : BitVec 32) : a.toNat / 4096 < 2 ^ 20 := by
  have := a.isLt
  omega

lemma pdIndex_lt (a : BitVec 32) : pdIndex a < 1024 := by
  rw [pdIndex_eq]
  have := page_lt a
  omega

lemma ptIndex_lt (a : BitVec 32) : ptIndex a < 1024 := by
  rw [ptIndex_eq]
  omega

@[simp] lemma setEntry_directory (v : Vmm) (b i : ℕ) (x : BitVec 32) :
    (v.setEntry b i x).kernelDirectory = v.kernelDirectory := rfl

lemma entries_setEntry (v : Vmm) {b c i j : ℕ} (x : BitVec 32) (hb : b % 4096 = 0)
    (hc : c % 4096 = 0) (hi : i < 1024) (hj : j < 1024) :
    (v.setEntry b i x).entries c j = if b = c ∧ i = j then x else v.entries c j := by
  simp only [entries, setEntry, Function.update_apply]
  have hiff : c + 4 * j = b + 4 * i ↔ b = c ∧ i = j := by omega
  simp only [hiff]

lemma fold_clear (v : Vmm) (b n : ℕ) :
    ((List.range n).foldl (fun v i => v.setEntry b i 0#32) v).kernelDirectory = v.kernelDirectory ∧
      ∀ c j, b % 4096 = 0 → c % 4096 = 0 → n ≤ 1024 → j < 1024 →
        ((List.range n).foldl (fun v i => v.setEntry b i 0#32) v).entries c j =
          if b = c ∧ j < n then 0#32 else v.entries c j := by
  induction n with
  | zero => simp
  | succ n ih =>
    rw [List.range_succ, List.foldl_append]
    refine ⟨ih.1, fun c j hb hc hn hj => ?_⟩
    rw [List.foldl_cons, List.foldl_nil, entries_setEntry _ _ hb hc (by omega) hj,
      ih.2 c j hb hc (by omega) hj]
    by_cases hnj : n = j
    · subst hnj
      by_cases hbc : b = c <;> simp [hbc]
    · have hiff : j < n + 1 ↔ j < n := by omega
      simp only [hnj, hiff, and_false, if_false]

@[simp] lemma clearEntries_directory (v : Vmm) (b : ℕ) :
    (v.clearEntries b).kernelDirectory = v.kernelDirectory := by
  unfold clearEntries
  exact (fold_clear v b 1024).1

lemma entries_clearEntries (v : Vmm) {b c j : ℕ} (hb : b % 4096 = 0) (hc : c % 4096 = 0)
    (hj : j < 1024) : (v.clearEntries b).entries c j = if b = c then 0#32 else v.entries c j := by
  have h := (fold_clear v b 1024).2 c j hb hc le_rfl hj
  simp only [hj, and_true] at h
  unfold clearEntries
  exact h

lemma tableAt_aligned (v : Vmm) (i : ℕ) : v.tableAt i % 4096 = 0 := by
  have h := PackedWord.toNat_base 12 (v.entries v.kernelDirectory i)
  have h' : v.tableAt i = (v.entries v.kernelDirectory i).toNat / 4096 * 4096 := h
  omega

def InUse (v : Vmm) (f : ℕ) : Prop :=
  f = v.kernelDirectory ∨ ∃ i < 1024, v.present i = true ∧ v.tableAt i = f

def PageFrame (f : ℕ) : Prop := f % 4096 = 0 ∧ f < 2 ^ 32

structure Tables (v : Vmm) : Prop where
  aligned : v.kernelDirectory % 4096 = 0
  directory_ne : ∀ i < 1024, v.present i = true → v.tableAt i ≠ v.kernelDirectory
  injective : ∀ i < 1024, ∀ j < 1024, v.present i = true → v.present j = true →
    v.tableAt i = v.tableAt j → i = j

def walk (v : Vmm) (page : ℕ) : Option (BitVec 32) :=
  if v.present (page / 1024) then
    let entry := v.entries (v.tableAt (page / 1024)) (page % 1024)
    if entry &&& ptePresent = 0#32 then none else some (entry &&& ~~~0xFFF#32)
  else none

def reading (m : ℕ → Option (BitVec 32)) (virtualAddr : BitVec 32) : BitVec 32 :=
  match m (virtualAddr.toNat / 4096) with
  | some f => f ||| (virtualAddr &&& 0xFFF#32)
  | none => 0#32

lemma getPhysicalAddress_eq (v : Vmm) (a : BitVec 32) :
    v.getPhysicalAddress a = reading v.walk a := by
  simp only [getPhysicalAddress, reading, walk, pdIndex_eq, ptIndex_eq]
  cases v.present (a.toNat / 4096 / 1024) with
  | false => simp
  | true =>
    simp only [Bool.not_true, Bool.false_eq_true, if_false, if_true]
    split <;> rfl

end Vmm

end Veni.Memory
