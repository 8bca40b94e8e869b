import Mathlib.Data.BitVec
import Mathlib.Tactic.Common
import Veni.Lib.PortProgram

/-! Channel 0 of an 8254 interval timer: how a control word and the bytes of a count set it up. -/

namespace Veni.Lib

/-- `low` is the first byte of a count of two bytes, until the second one comes. -/
structure IntervalTimer where
  access : BitVec 2
  mode : BitVec 3
  decimal : Bool
  low : Option (BitVec 8)
  reload : BitVec 16

namespace IntervalTimer

/-- A latch command and the words for other channels change nothing here. -/
def writeControl (t : IntervalTimer) (v : BitVec 8) : IntervalTimer :=
  if v.extractLsb' 6 2 = 0#2 ∧ v.extractLsb' 4 2 ≠ 0#2 then
    { t with
      access := v.extractLsb' 4 2
      mode := v.extractLsb' 1 3
      decimal := v.getLsbD 0
      low := none }
  else t

def writeCount (t : IntervalTimer) (v : BitVec 8) : IntervalTimer :=
  if t.access = 1#2 then { t with reload := v.setWidth 16 }
  else if t.access = 2#2 then { t with reload := v.setWidth 16 <<< 8 }
  else
    match t.low with
    | none => { t with low := some v }
    | some low => { t with low := none, reload := v ++ low }

def period (t : IntervalTimer) : ℕ := if t.reload = 0#16 then 65536 else t.reload.toNat

def bus : Bus IntervalTimer where
  read t _ := (0xFF#8, t)
  write t port v :=
    if port = 0x43#16 then t.writeControl v
    else if port = 0x40#16 then t.writeCount v
    else t

end IntervalTimer

end Veni.Lib
