import Mathlib.Data.BitVec
import Mathlib.Tactic.Common

/-! Descriptor tables of a 32-bit x86 processor in ring 0: what their words mean, and which segments and
interrupt handlers can be reached through them. -/

namespace Veni.Lib

structure Segment where
  base : BitVec 32
  limit : BitVec 20
  access : BitVec 8
  flags : BitVec 4
  deriving DecidableEq

namespace Segment

def ofWord (w : BitVec 64) : Segment where
  base := w.extractLsb' 56 8 ++ w.extractLsb' 16 24
  limit := w.extractLsb' 48 4 ++ w.extractLsb' 0 16
  access := w.extractLsb' 40 8
  flags := w.extractLsb' 52 4

def last (s : Segment) : ℕ :=
  if s.flags.getLsbD 3 then s.limit.toNat * 4096 + 4095 else s.limit.toNat

def present (s : Segment) : Bool := s.access.getLsbD 7

def level (s : Segment) : BitVec 2 := s.access.extractLsb' 5 2

def plain (s : Segment) : Bool := s.access.getLsbD 4

def executable (s : Segment) : Bool := s.access.getLsbD 3

def readWrite (s : Segment) : Bool := s.access.getLsbD 1

def linear (s : Segment) (offset : BitVec 32) : Option (BitVec 32) :=
  if offset.toNat ≤ s.last then some (s.base + offset) else none

end Segment

/-- A table of words, and the last byte of it as the table register has it. -/
structure DescriptorTable where
  limit : BitVec 16
  words : ℕ → BitVec 64

def DescriptorTable.word (t : DescriptorTable) (index : ℕ) : Option (BitVec 64) :=
  if 8 * index + 7 ≤ t.limit.toNat then some (t.words index) else none

/-- The segment that a selector names in the global table; the first entry is never used. -/
def DescriptorTable.segment (t : DescriptorTable) (selector : BitVec 16) : Option Segment :=
  if selector.getLsbD 2 ∨ selector >>> 3 = 0#16 then none
  else ((t.word (selector >>> 3).toNat).map Segment.ofWord).filter fun s => s.present && s.plain

/-- Loads of the stack segment, which all data segments allow as well. -/
def DescriptorTable.stackSegment (t : DescriptorTable) (selector : BitVec 16) : Option Segment :=
  (t.segment selector).filter fun s =>
    !s.executable && s.readWrite && decide (s.level = 0#2) && decide (selector.extractLsb' 0 2 = 0#2)

def DescriptorTable.codeSegment (t : DescriptorTable) (selector : BitVec 16) : Option Segment :=
  (t.segment selector).filter fun s =>
    s.executable && decide (s.level = 0#2) && decide (selector.extractLsb' 0 2 = 0#2)

structure Gate where
  offset : BitVec 32
  selector : BitVec 16
  attributes : BitVec 8

def Gate.ofWord (w : BitVec 64) : Gate where
  offset := w.extractLsb' 48 16 ++ w.extractLsb' 0 16
  selector := w.extractLsb' 16 16
  attributes := w.extractLsb' 40 8

/-- A 32-bit interrupt gate that is present. -/
def Gate.interrupt (g : Gate) : Bool := g.attributes.getLsbD 7 && decide (g.attributes.extractLsb' 0 5 = 0xE#5)

/-- The gate of a vector; `none` is a fault. -/
def DescriptorTable.gate (t : DescriptorTable) (vector : ℕ) : Option Gate :=
  ((t.word vector).map Gate.ofWord).filter Gate.interrupt

def handlerAddress (idt gdt : DescriptorTable) (vector : ℕ) : Option (BitVec 32) :=
  (idt.gate vector).bind fun g => (gdt.codeSegment g.selector).bind fun s => s.linear g.offset

lemma Segment.linear_flat {s : Segment} (hbase : s.base = 0#32) (hlimit : s.limit = 0xFFFFF#20)
    (hflags : s.flags.getLsbD 3 = true) (offset : BitVec 32) : s.linear offset = some offset := by
  have hlast : offset.toNat ≤ s.last := by
    have h := offset.isLt
    rw [last, if_pos hflags, hlimit]
    exact Nat.le_of_lt_succ h
  rw [linear, if_pos hlast, hbase, BitVec.zero_add]

end Veni.Lib
