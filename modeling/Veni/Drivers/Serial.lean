import Veni.Lib.LineEndings
import Veni.Lib.Uart
import Veni.Libc.Strings

/-! The serial port, `arch/i386/serial.c`: a polled transmitter on COM1. -/

namespace Veni.Drivers.Serial

open Veni.Lib Veni.Lib.LineEndings Veni.Libc

def serialCom1Base : BitVec 16 := 0x3F8

def serialDataPort (base : BitVec 16) : BitVec 16 := base

def serialFifoCommandPort (base : BitVec 16) : BitVec 16 := base + 2

def serialLineCommandPort (base : BitVec 16) : BitVec 16 := base + 3

def serialModemCommandPort (base : BitVec 16) : BitVec 16 := base + 4

def serialLineStatusPort (base : BitVec 16) : BitVec 16 := base + 5

def serialLineEnableDlab : BitVec 8 := 0x80

variable (w : UartWorld)

def inb (u : Uart) (port : BitVec 16) : BitVec 8 × Uart :=
  u.readRegister w (port - serialCom1Base).toNat

def outb (u : Uart) (port : BitVec 16) (value : BitVec 8) : Uart :=
  u.writeRegister w (port - serialCom1Base).toNat value

def serialIsTransmitFifoEmpty (u : Uart) (base : BitVec 16) : BitVec 8 × Uart :=
  let r := inb w u (serialLineStatusPort base)
  (r.1 &&& 0x20#8, r.2)

def serialInit (u : Uart) : Uart :=
  let base := serialCom1Base
  let u := outb w u (serialLineCommandPort base) serialLineEnableDlab
  let u := outb w u (serialDataPort base) 0x03
  let u := outb w u (serialDataPort base + 1) 0x00
  let u := outb w u (serialLineCommandPort base) 0x03
  let u := outb w u (serialFifoCommandPort base) 0xC7
  outb w u (serialModemCommandPort base) 0x0B

/-- `while (!serial_is_transmit_fifo_empty(base))`, for `n` turns at most. -/
def waitEmpty (base : BitVec 16) : ℕ → Uart → Option Uart
  | 0, _ => none
  | n + 1, u =>
    let r := serialIsTransmitFifoEmpty w u base
    if r.1 ≠ 0 then some r.2 else waitEmpty base n r.2

/-- `none` is a wait of more than `n` turns. -/
def serialPutchar (n : ℕ) (u : Uart) (c : BitVec 8) : Option Uart :=
  let base := serialCom1Base
  (waitEmpty w base n u).bind fun u =>
    (if c = 0x0A#8 then waitEmpty w base n (outb w u (serialDataPort base) 0x0D#8) else some u).map
      fun u => outb w u (serialDataPort base) c

def serialWrite (n : ℕ) : Uart → List (BitVec 8) → Option Uart
  | u, [] => some u
  | u, c :: data => (serialPutchar w n u c).bind fun u => serialWrite n u data

def serialWritestring (n : ℕ) : Uart → CString → Option Uart
  | u, [] => some u
  | u, c :: data => (serialPutchar w n u c.val.toBitVec).bind fun u => serialWritestring n u data

def transmitted (data : List (BitVec 8)) : List (BitVec 8) := expand 0x0D#8 0x0A#8 data

structure Sends (u v : Uart) (bytes : List (BitVec 8)) : Prop where
  sent : v.sent = u.sent ++ bytes
  same : Uart.SameSettings u v

variable {w} {u v x : Uart} {n : ℕ}

lemma Sends.trans {bs cs : List (BitVec 8)} (h : Sends u v bs) (h' : Sends v x cs) :
    Sends u x (bs ++ cs) :=
  ⟨by rw [h'.sent, h.sent, List.append_assoc], h.same.trans h'.same⟩

lemma isTransmitFifoEmpty_eq (u : Uart) :
    (serialIsTransmitFifoEmpty w u serialCom1Base).2 = u.tick w ∧
      ((serialIsTransmitFifoEmpty w u serialCom1Base).1 ≠ 0 ↔ (u.tick w).queue = []) := by
  have hport : (serialLineStatusPort serialCom1Base - serialCom1Base).toNat = 5 := by decide
  simp only [serialIsTransmitFifoEmpty, inb, hport, Uart.readRegister, if_true]
  exact ⟨trivial, Uart.status_bit _ _⟩

lemma waitEmpty_succ (n : ℕ) (u : Uart) :
    waitEmpty w serialCom1Base (n + 1) u =
      if (u.tick w).queue = [] then some (u.tick w) else waitEmpty w serialCom1Base n (u.tick w) := by
  obtain ⟨hnext, hready⟩ := isTransmitFifoEmpty_eq (w := w) u
  rw [waitEmpty, hnext]
  by_cases he : (u.tick w).queue = []
  · rw [if_pos he]
    exact if_pos (hready.mpr he)
  · rw [if_neg he]
    exact if_neg fun h => he (hready.mp h)

lemma waitEmpty_spec (h : waitEmpty w serialCom1Base n u = some v) : Sends u v [] ∧ v.queue = [] := by
  induction n generalizing u with
  | zero => cases h
  | succ n ih =>
    have htick : Sends u (u.tick w) [] := ⟨by simp [Uart.sent_tick], Uart.tick_same w u⟩
    rw [waitEmpty_succ] at h
    split at h
    · next he =>
      cases h
      exact ⟨htick, he⟩
    · obtain ⟨hs, hq⟩ := ih h
      exact ⟨htick.trans hs, hq⟩

lemma waitEmpty_more {m : ℕ} (hm : n ≤ m) (h : waitEmpty w serialCom1Base n u = some v) :
    waitEmpty w serialCom1Base m u = some v := by
  induction n generalizing u m with
  | zero => cases h
  | succ n ih =>
    cases m with
    | zero => cases hm
    | succ m =>
      rw [waitEmpty_succ] at h ⊢
      split at h
      · next he => rw [if_pos he, h]
      · next he =>
        rw [if_neg he]
        exact ih (Nat.le_of_succ_le_succ hm) h

lemma waitEmpty_later (h : ∃ n, (waitEmpty w serialCom1Base n (u.tick w)).isSome) :
    ∃ n, (waitEmpty w serialCom1Base n u).isSome := by
  obtain ⟨n, hn⟩ := h
  refine ⟨n + 1, ?_⟩
  rw [waitEmpty_succ]
  split
  · rfl
  · exact hn

lemma waitEmpty_returns (hfair : Uart.Fair w) (u : Uart) :
    ∃ n, (waitEmpty w serialCom1Base n u).isSome := by
  induction hlen : u.queue.length generalizing u with
  | zero =>
    refine ⟨1, ?_⟩
    have hq := List.length_eq_zero_iff.mp hlen
    rw [waitEmpty_succ, if_pos (Uart.queue_tick_nil w hq)]
    rfl
  | succ len ih =>
    have hdrained : ∀ v : Uart, v.queue.length = len + 1 → w.drains v.time = true →
        ∃ n, (waitEmpty w serialCom1Base n v).isSome := by
      intro v hv hnow
      apply waitEmpty_later
      apply ih
      rw [Uart.queue_tick, if_pos hnow, List.length_tail, hv, Nat.add_sub_cancel]
    obtain ⟨k, hk⟩ := hfair u.time
    induction k generalizing u with
    | zero => exact hdrained u hlen hk
    | succ k ihk =>
      by_cases hnow : w.drains u.time = true
      · exact hdrained u hlen hnow
      · apply waitEmpty_later
        apply ihk
        · rw [Uart.queue_tick, if_neg hnow, hlen]
        · rw [Uart.time_tick, Nat.add_right_comm, Nat.add_assoc]
          exact hk

lemma outb_data (hu : u.latched = false) (hq : u.queue = []) (c : BitVec 8) :
    Sends u (outb w u (serialDataPort serialCom1Base) c) [c] := by
  have hport : (serialDataPort serialCom1Base - serialCom1Base).toNat = 0 := by decide
  have hq' := Uart.queue_tick_nil w hq
  have hu' : (u.tick w).latched = false := (Uart.tick_same w u).latched.trans hu
  rw [outb, hport, Uart.writeRegister]
  obtain ⟨hsent, hsame, _⟩ := Uart.sent_put hu' hq' c
  exact ⟨by rw [hsent, Uart.sent_tick], (Uart.tick_same w u).trans hsame⟩

lemma serialPutchar_spec (hu : u.latched = false) {c : BitVec 8}
    (h : serialPutchar w n u c = some v) : Sends u v (transmitted [c]) := by
  obtain ⟨x, hx, hrest⟩ := Option.bind_eq_some_iff.mp h
  obtain ⟨y, hy, rfl⟩ := Option.map_eq_some_iff.mp hrest
  obtain ⟨hsx, hqx⟩ := waitEmpty_spec hx
  have hux := hsx.same.latched.trans hu
  simp only [transmitted, expand]
  split at hy
  · next hc =>
    have hcr := outb_data (w := w) hux hqx 0x0D#8
    obtain ⟨hsy, hqy⟩ := waitEmpty_spec hy
    have huy := hsy.same.latched.trans (hcr.same.latched.trans hux)
    rw [if_pos hc, hc]
    exact ((hsx.trans hcr).trans hsy).trans (outb_data huy hqy 0x0A#8)
  · next hc =>
    cases hy
    rw [if_neg hc]
    exact hsx.trans (outb_data hux hqx c)

lemma serialPutchar_more {m : ℕ} (hm : n ≤ m) {c : BitVec 8} (h : serialPutchar w n u c = some v) :
    serialPutchar w m u c = some v := by
  obtain ⟨x, hx, hrest⟩ := Option.bind_eq_some_iff.mp h
  obtain ⟨y, hy, hv⟩ := Option.map_eq_some_iff.mp hrest
  simp only [serialPutchar, waitEmpty_more hm hx, Option.bind_some]
  split at hy
  · next hc => rw [if_pos hc, waitEmpty_more hm hy, Option.map_some, hv]
  · next hc => rw [if_neg hc, hy, Option.map_some, hv]

lemma serialPutchar_returns (hfair : Uart.Fair w) (u : Uart) (c : BitVec 8) :
    ∃ n v, serialPutchar w n u c = some v := by
  obtain ⟨n, hn⟩ := waitEmpty_returns hfair u
  obtain ⟨x, hx⟩ := Option.isSome_iff_exists.mp hn
  obtain ⟨m, hm⟩ := waitEmpty_returns hfair (outb w x (serialDataPort serialCom1Base) 0x0D#8)
  obtain ⟨y, hy⟩ := Option.isSome_iff_exists.mp hm
  refine ⟨max n m, ?_⟩
  simp only [serialPutchar, waitEmpty_more (Nat.le_max_left n m) hx, Option.bind_some]
  split
  · exact ⟨_, by rw [waitEmpty_more (Nat.le_max_right n m) hy, Option.map_some]⟩
  · exact ⟨_, rfl⟩

lemma serialWrite_spec (hu : u.latched = false) {data : List (BitVec 8)}
    (h : serialWrite w n u data = some v) : Sends u v (transmitted data) := by
  induction data generalizing u with
  | nil =>
    cases h
    exact ⟨by simp [transmitted, expand], .refl _⟩
  | cons c data ih =>
    obtain ⟨x, hx, hrest⟩ := Option.bind_eq_some_iff.mp h
    have hc := serialPutchar_spec hu hx
    have happend : transmitted (c :: data) = transmitted [c] ++ transmitted data :=
      expand_append [c] data
    rw [happend]
    exact hc.trans (ih (hc.same.latched.trans hu) hrest)

lemma serialWrite_more {m : ℕ} (hm : n ≤ m) {data : List (BitVec 8)}
    (h : serialWrite w n u data = some v) : serialWrite w m u data = some v := by
  induction data generalizing u with
  | nil => exact h
  | cons c data ih =>
    obtain ⟨x, hx, hrest⟩ := Option.bind_eq_some_iff.mp h
    rw [serialWrite, serialPutchar_more hm hx]
    exact ih hrest

lemma serialWrite_returns (hfair : Uart.Fair w) (u : Uart) (data : List (BitVec 8)) :
    ∃ n v, serialWrite w n u data = some v := by
  induction data generalizing u with
  | nil => exact ⟨0, u, rfl⟩
  | cons c data ih =>
    obtain ⟨n, x, hx⟩ := serialPutchar_returns hfair u c
    obtain ⟨m, v, hv⟩ := ih x
    refine ⟨max n m, v, ?_⟩
    rw [serialWrite, serialPutchar_more (Nat.le_max_left n m) hx]
    exact serialWrite_more (Nat.le_max_right n m) hv

lemma serialWritestring_eq (u : Uart) (s : CString) :
    serialWritestring w n u s = serialWrite w n u (s.map fun c => c.val.toBitVec) := by
  induction s generalizing u with
  | nil => rfl
  | cons c s ih =>
    rw [serialWritestring, List.map_cons, serialWrite]
    exact Option.bind_congr fun x _ => ih x

/-- 38400 baud, eight bits, no parity, one stop bit; nothing waits and the data port takes bytes. -/
structure Configured (u : Uart) : Prop where
  divisor : u.divisor = 3
  line : u.lineControl = 0x03
  fifo : u.fifoControl = 0xC7
  modem : u.modemControl = 0x0B
  latched : u.latched = false

lemma serialInit_configured (w : UartWorld) (u : Uart) :
    Configured (serialInit w u) ∧ (serialInit w u).queue = [] := by
  have h0 : (serialDataPort serialCom1Base - serialCom1Base).toNat = 0 := by decide
  have h1 : (serialDataPort serialCom1Base + 1 - serialCom1Base).toNat = 1 := by decide
  have h2 : (serialFifoCommandPort serialCom1Base - serialCom1Base).toNat = 2 := by decide
  have h3 : (serialLineCommandPort serialCom1Base - serialCom1Base).toNat = 3 := by decide
  have h4 : (serialModemCommandPort serialCom1Base - serialCom1Base).toNat = 4 := by decide
  have hlatch : (serialLineEnableDlab).getLsbD 7 = true := by decide
  simp only [serialInit, outb, h0, h1, h2, h3, h4, Uart.writeRegister, Uart.put, Uart.latched,
    Uart.lineControl_tick, hlatch, if_true]
  refine ⟨⟨?_, rfl, ?_, rfl, ?_⟩, ?_⟩
  · simp [Uart.divisor]
  · simp
  · simp [Uart.latched]
  · exact Uart.queue_tick_nil w rfl

/-- After `serial_init`, whatever was written to the port before: every text is written to its end and
none of its bytes is lost, whenever the transmitter sends them. Each newline has a carriage return
before it, and the receiver can tell the text from what it gets. -/
theorem serialWrite_sends (w : UartWorld) (hfair : Uart.Fair w) (u : Uart) (data : List (BitVec 8)) :
    ∃ n, ∀ m ≥ n, ∃ v, serialWrite w m (serialInit w u) data = some v ∧
      v.sent = (serialInit w u).line ++ transmitted data ∧ Configured v ∧
        collapse 0x0D#8 0x0A#8 (v.sent.drop (serialInit w u).line.length) = data := by
  obtain ⟨hconf, hq⟩ := serialInit_configured w u
  generalize serialInit w u = s at hconf hq ⊢
  obtain ⟨n, v, hv⟩ := serialWrite_returns hfair s data
  have hsends := serialWrite_spec hconf.latched hv
  have hline : s.sent = s.line := by
    rw [Uart.sent, hq, List.append_nil]
  have hsent : v.sent = s.line ++ transmitted data := by
    rw [hsends.sent, hline]
  refine ⟨n, fun m hm => ⟨v, serialWrite_more hm hv, hsent, ?_, ?_⟩⟩
  · exact ⟨hsends.same.divisor.trans hconf.divisor, hsends.same.lineControl.trans hconf.line,
      hsends.same.fifoControl.trans hconf.fifo, hsends.same.modemControl.trans hconf.modem,
      hsends.same.latched.trans hconf.latched⟩
  · rw [hsent, List.drop_left]
    exact collapse_expand (by decide) data

theorem serialWritestring_sends (w : UartWorld) (hfair : Uart.Fair w) (u : Uart) (s : CString) :
    ∃ n, ∀ m ≥ n, ∃ v, serialWritestring w m (serialInit w u) s = some v ∧
      v.sent = (serialInit w u).line ++ transmitted (s.map fun c => c.val.toBitVec) := by
  obtain ⟨hconf, hq⟩ := serialInit_configured w u
  obtain ⟨n, v, hv⟩ := serialWrite_returns hfair (serialInit w u) (s.map fun c => c.val.toBitVec)
  refine ⟨n, fun m hm => ⟨v, (serialWritestring_eq _ _).trans (serialWrite_more hm hv), ?_⟩⟩
  rw [(serialWrite_spec hconf.latched hv).sent, Uart.sent, hq, List.append_nil]

def slowWorld : UartWorld := ⟨fun t => t % 3 == 0, fun _ => 0x60⟩

lemma slowWorld_fair : Uart.Fair slowWorld := by
  intro t
  refine ⟨2 * t, ?_⟩
  have hmod : (t + 2 * t) % 3 = 0 := by omega
  simp [slowWorld, hmod]

def busyUart : Uart := ⟨1, 0, 0, 0, 0, 0, [0x23], [], 0⟩

theorem serialWrite_sends_slow :
    ∃ n, ∀ m ≥ n, ∃ v, serialWrite slowWorld m (serialInit slowWorld busyUart) [0x68, 0x0A] = some v ∧
      v.sent = (serialInit slowWorld busyUart).line ++ transmitted [0x68, 0x0A] ∧ Configured v ∧
        collapse 0x0D#8 0x0A#8 (v.sent.drop (serialInit slowWorld busyUart).line.length) =
          [0x68, 0x0A] :=
  serialWrite_sends slowWorld slowWorld_fair busyUart _

end Veni.Drivers.Serial
