import Mathlib.Data.BitVec
import Mathlib.Tactic.Common

/-! The transmitter of a 16550 UART: its registers, and a queue that goes out at moments of its own. -/

namespace Veni.Lib

/-- The registers that software writes, the bytes waiting, the bytes gone out, and how many accesses
there were. -/
structure Uart where
  divisorLow : BitVec 8
  divisorHigh : BitVec 8
  interruptEnable : BitVec 8
  fifoControl : BitVec 8
  lineControl : BitVec 8
  modemControl : BitVec 8
  queue : List (BitVec 8)
  line : List (BitVec 8)
  time : ℕ

/-- At which accesses a waiting byte has gone out since the access before, and what reads give where
the transmitter does not decide it. -/
structure UartWorld where
  drains : ℕ → Bool
  reads : ℕ → BitVec 8

namespace Uart

variable (w : UartWorld)

def Fair (w : UartWorld) : Prop := ∀ t, ∃ k, w.drains (t + k) = true

def drain (u : Uart) : Uart := { u with queue := u.queue.tail, line := u.line ++ u.queue.take 1 }

def tick (u : Uart) : Uart :=
  { if w.drains u.time then u.drain else u with time := u.time + 1 }

def latched (u : Uart) : Bool := u.lineControl.getLsbD 7

def capacity (u : Uart) : ℕ := if u.fifoControl.getLsbD 0 then 16 else 1

def sent (u : Uart) : List (BitVec 8) := u.line ++ u.queue

def status (u : Uart) (v : BitVec 8) : BitVec 8 :=
  if u.queue = [] then v ||| 0x20#8 else v &&& ~~~0x20#8

def readRegister (u : Uart) (r : ℕ) : BitVec 8 × Uart :=
  let t := u.tick w
  (if r = 5 then t.status (w.reads u.time) else w.reads u.time, t)

def put (u : Uart) (r : ℕ) (v : BitVec 8) : Uart :=
  match r with
  | 0 =>
    if u.latched then { u with divisorLow := v }
    -- a byte that finds no room is lost
    else if u.queue.length < u.capacity then { u with queue := u.queue ++ [v] }
    else u
  | 1 => if u.latched then { u with divisorHigh := v } else { u with interruptEnable := v }
  | 2 => { u with fifoControl := v, queue := if v.getLsbD 2 then [] else u.queue }
  | 3 => { u with lineControl := v }
  | 4 => { u with modemControl := v }
  | _ => u

def writeRegister (u : Uart) (r : ℕ) (v : BitVec 8) : Uart := (u.tick w).put r v

def divisor (u : Uart) : ℕ := u.divisorHigh.toNat * 256 + u.divisorLow.toNat

structure SameSettings (u v : Uart) : Prop where
  divisor : v.divisor = u.divisor
  interruptEnable : v.interruptEnable = u.interruptEnable
  fifoControl : v.fifoControl = u.fifoControl
  lineControl : v.lineControl = u.lineControl
  modemControl : v.modemControl = u.modemControl

lemma SameSettings.refl (u : Uart) : SameSettings u u := ⟨rfl, rfl, rfl, rfl, rfl⟩

lemma SameSettings.trans {u v x : Uart} (h : SameSettings u v) (h' : SameSettings v x) :
    SameSettings u x :=
  ⟨h'.divisor.trans h.divisor, h'.interruptEnable.trans h.interruptEnable,
    h'.fifoControl.trans h.fifoControl, h'.lineControl.trans h.lineControl,
    h'.modemControl.trans h.modemControl⟩

lemma SameSettings.latched {u v : Uart} (h : SameSettings u v) : v.latched = u.latched := by
  rw [Uart.latched, h.lineControl]
  rfl

@[simp] lemma divisorLow_tick (u : Uart) : (u.tick w).divisorLow = u.divisorLow := by
  unfold tick
  split <;> rfl

@[simp] lemma divisorHigh_tick (u : Uart) : (u.tick w).divisorHigh = u.divisorHigh := by
  unfold tick
  split <;> rfl

@[simp] lemma interruptEnable_tick (u : Uart) : (u.tick w).interruptEnable = u.interruptEnable := by
  unfold tick
  split <;> rfl

@[simp] lemma fifoControl_tick (u : Uart) : (u.tick w).fifoControl = u.fifoControl := by
  unfold tick
  split <;> rfl

@[simp] lemma lineControl_tick (u : Uart) : (u.tick w).lineControl = u.lineControl := by
  unfold tick
  split <;> rfl

@[simp] lemma modemControl_tick (u : Uart) : (u.tick w).modemControl = u.modemControl := by
  unfold tick
  split <;> rfl

lemma sent_tick (u : Uart) : (u.tick w).sent = u.sent := by
  unfold tick
  split
  · cases hq : u.queue <;> simp [drain, sent, hq]
  · rfl

lemma tick_same (u : Uart) : SameSettings u (u.tick w) := by
  refine ⟨?_, ?_, ?_, ?_, ?_⟩
  all_goals simp [divisor]

lemma time_tick (u : Uart) : (u.tick w).time = u.time + 1 := rfl

lemma queue_tick (u : Uart) :
    (u.tick w).queue = if w.drains u.time then u.queue.tail else u.queue := by
  unfold tick
  split <;> rfl

lemma queue_tick_nil {u : Uart} (h : u.queue = []) : (u.tick w).queue = [] := by
  rw [queue_tick, h]
  split <;> rfl

lemma capacity_pos (u : Uart) : 0 < u.capacity := by
  unfold capacity
  split <;> decide

lemma status_bit (u : Uart) (v : BitVec 8) : u.status v &&& 0x20#8 ≠ 0#8 ↔ u.queue = [] := by
  unfold status
  split
  · next h =>
    have hbit : (v ||| 0x20#8) &&& 0x20#8 = 0x20#8 := by
      rw [BitVec.and_or_distrib_right, BitVec.and_self]
      apply BitVec.eq_of_getLsbD_eq
      intro i _
      rw [BitVec.getLsbD_or, BitVec.getLsbD_and]
      cases (0x20#8).getLsbD i <;> simp
    rw [hbit]
    simp [h]
  · next h =>
    have hbit : (v &&& ~~~0x20#8) &&& 0x20#8 = 0#8 := by
      rw [BitVec.and_assoc]
      have hz : ~~~0x20#8 &&& 0x20#8 = 0#8 := by decide
      rw [hz, BitVec.and_zero]
    rw [hbit]
    simp [h]

lemma sent_put {u : Uart} (hu : u.latched = false) (hq : u.queue = []) (v : BitVec 8) :
    (u.put 0 v).sent = u.sent ++ [v] ∧ SameSettings u (u.put 0 v) ∧ (u.put 0 v).queue = [v] := by
  have hroom : ([] : List (BitVec 8)).length < u.capacity := u.capacity_pos
  simp only [put, hu, hq, Bool.false_eq_true, if_false, hroom, if_true]
  exact ⟨by simp [sent, hq], ⟨rfl, rfl, rfl, rfl, rfl⟩, rfl⟩

end Uart

end Veni.Lib
