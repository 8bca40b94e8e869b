import Veni.Drivers.Keyboard
import Veni.Drivers.Pit
import Veni.Interrupts.IrqReturn
import Veni.Lib.Transition
import Veni.Libc.Console

/-! `irq_handler`, of `arch/i386/interrupts/isr.c`, and the interrupts that reach it over a pair of
controllers as `kearly` sets them up. -/

namespace Veni.Interrupts

open Veni.Lib Veni.Lib.Pics Veni.Lib.PortProgram Veni.Lib.Transition Veni.Libc Veni.Drivers
open Veni.Drivers.Pit

structure Devices where
  pit : Pit
  keyboard : Keyboard
  console : Console

section Handler

variable (w : UartWorld) (n : ℕ)

/-- The `switch`. `scs` is what the keyboard gives; `none` is a wait for the serial port of more than
`n` turns. -/
def handleIrq (d : Devices) (irq : BitVec 8) (scs : List (BitVec 8)) : Option Devices :=
  match irq.toNat with
  | 0 => some { d with pit := d.pit.pitHandler }
  | 1 => some { d with keyboard := d.keyboard.keyboardHandler scs }
  | _ =>
    (Console.printf w n d.console (cstring "Unhandled IRQ: %d\n") [.int (irq.setWidth 32)]).map
      fun r => { d with console := r.1 }

def irqHandler (d : Devices) (vector : BitVec 32) (scs : List (BitVec 8)) :
    Option (Devices × PortProgram Unit) :=
  let irq := (vector - 32#32).setWidth 8
  (handleIrq w n d irq scs).map fun d => (d, picSendEoi irq)

end Handler

def kearlyIrqs : PortProgram Unit := do
  picRemap 0x20#32 0x28#32
  picDisable
  pitInit 100#32
  irqClearMask 1#8

inductive PicCall
  | kearly
  | setMask (line : Fin 40)
  | clearMask (line : Fin 40)
  | disable
  | getIrr
  | getIsr
  deriving DecidableEq

def PicCall.program : PicCall → PortProgram (BitVec 16)
  | .kearly => do kearlyIrqs; return 0#16
  | .setMask line => do irqSetMask (BitVec.ofNat 8 line); return 0#16
  | .clearMask line => do irqClearMask (BitVec.ofNat 8 line); return 0#16
  | .disable => do picDisable; return 0#16
  | .getIrr => picGetIrr
  | .getIsr => picGetIsr

/-- What becomes of the masks of the sixteen lines. -/
def PicCall.masks (m : ℕ → Bool) : PicCall → ℕ → Bool
  | .kearly => fun l => l ≠ 1
  | .setMask line => fun l => l = line.val || m l
  | .clearMask line => fun l => l ≠ line.val && m l
  | .disable => fun _ => true
  | .getIrr | .getIsr => m

/-- Where the processor stands: in other code, in a call, between the request of the controllers and
its first pulse, between the pulses, at the handler's entry, or in `pic_send_eoi`. -/
inductive Cpu
  | free
  | calling (c : PicCall) (rest : PortProgram (BitVec 16))
  | asked
  | answering (i : ℕ)
  | entered (vector : BitVec 8)
  | ending (rest : PortProgram Unit)

/-- The controllers, the devices and the processor, with the history: the lines raised, the vectors
that the processor got, and the calls that have returned. -/
structure IrqSystem where
  pics : Pics
  devices : Devices
  cpu : Cpu
  interruptFlag : Bool
  raised : List ℕ
  delivered : List (BitVec 8)
  returned : List (PicCall × BitVec 16)

inductive IrqEvent
  | drive (line : Fin 16) (up : Bool)
  | sti
  | cli
  | call (c : PicCall)
  | interrupt
  | pulse
  | handle (n : ℕ) (scs : List (BitVec 8))
  | access

namespace IrqSystem

def boot (p : Pics) (d : Devices) : IrqSystem :=
  ⟨p, d, .calling .kearly (PicCall.program .kearly), false, [], [], []⟩

def accessStep (s : IrqSystem) : Option IrqSystem :=
  match s.cpu with
  | .calling c (.done r) => some { s with cpu := .free, returned := s.returned ++ [(c, r)] }
  | .calling c rest =>
    (rest.advance bus s.pics).map fun r => { s with cpu := .calling c r.1, pics := r.2 }
  -- `iret` sets the interrupt flag again
  | .ending (.done _) => some { s with cpu := .free, interruptFlag := true }
  | .ending rest => (rest.advance bus s.pics).map fun r => { s with cpu := .ending r.1, pics := r.2 }
  | _ => none

def pulseStep (s : IrqSystem) : Option IrqSystem :=
  match s.cpu with
  | .asked => some { s with cpu := .answering s.pics.select.1, pics := s.pics.select.2 }
  | .answering i =>
    some
      { s with
        cpu := .entered (s.pics.supply i).1
        pics := (s.pics.supply i).2
        -- an interrupt gate
        interruptFlag := false
        delivered := s.delivered ++ [(s.pics.supply i).1] }
  | _ => none

/-- The kernel calls the driver with interrupts off: the stubs do not keep a caller's registers. -/
def next (w : UartWorld) (s : IrqSystem) : IrqEvent → Option IrqSystem
  | .drive line up =>
    some
      { s with
        pics := s.pics.drive line up
        raised := if up then s.raised ++ [line.val] else s.raised }
  | .sti => match s.cpu with | .free => some { s with interruptFlag := true } | _ => none
  | .cli => match s.cpu with | .free => some { s with interruptFlag := false } | _ => none
  | .call c =>
    match s.cpu with
    | .free => if s.interruptFlag then none else some { s with cpu := .calling c c.program }
    | _ => none
  | .interrupt =>
    match s.cpu with
    | .free => if s.interruptFlag && s.pics.asks then some { s with cpu := .asked } else none
    | _ => none
  | .pulse => s.pulseStep
  | .handle n scs =>
    match s.cpu with
    -- another vector has another handler
    | .entered vector =>
      if 32 ≤ vector.toNat ∧ vector.toNat < 48 then
        (irqHandler w n s.devices (vector.setWidth 32) scs).map fun r =>
          { s with devices := r.1, cpu := .ending r.2 }
      else none
    | _ => none
  | .access => s.accessStep

def Step (w : UartWorld) (s : IrqSystem) (e : IrqEvent) (t : IrqSystem) : Prop := s.next w e = some t

end IrqSystem

structure Settled (m : ℕ → Bool) (p : Pics) : Prop where
  cascaded : Cascaded p 0x20#8 0x28#8
  idle : Idle p
  masked : ∀ l < 16, p.masked l = m l

structure Answering (m : ℕ → Bool) (i : ℕ) (p : Pics) : Prop where
  cascaded : Cascaded p 0x20#8 0x28#8
  line_lt : i < 8
  master : Chip.Alone p.master.inService
  slave : p.slave.inService = 0#8
  masked : ∀ l < 16, p.masked l = m l
  unmasked : i ≠ 7 → m i = false

structure Serving (m : ℕ → Bool) (l : ℕ) (p : Pics) : Prop where
  cascaded : Cascaded p 0x20#8 0x28#8
  line_lt : l < 16
  line_ne : l ≠ 2
  master : Chip.Alone p.master.inService
  slave : Chip.Alone p.slave.inService
  first : l < 8 → p.slave.inService = 0#8
  masked : ∀ l < 16, p.masked l = m l
  unmasked : l ≠ 7 → l ≠ 15 → m l = false
  second : 8 ≤ l → m 2 = false

variable {m : ℕ → Bool} {p q : Pics} {i l : ℕ}

lemma Settled.moved (h : Settled m p) (hm : Moves p q) : Settled m q :=
  ⟨h.cascaded.moved hm, hm.idle h.idle, fun l hl => (hm.masked l).trans (h.masked l hl)⟩

lemma Answering.moved (h : Answering m i p) (hm : Moves p q) : Answering m i q := by
  refine ⟨h.cascaded.moved hm, h.line_lt, ?_, ?_, fun l hl => (hm.masked l).trans (h.masked l hl),
    h.unmasked⟩
  · obtain ⟨_, _, rfl⟩ := hm
    exact h.master
  · obtain ⟨_, _, rfl⟩ := hm
    exact h.slave

lemma Serving.moved (h : Serving m l p) (hm : Moves p q) : Serving m l q := by
  refine ⟨h.cascaded.moved hm, h.line_lt, h.line_ne, ?_, ?_, ?_,
    fun l hl => (hm.masked l).trans (h.masked l hl), h.unmasked, h.second⟩
  all_goals obtain ⟨_, _, rfl⟩ := hm
  · exact h.master
  · exact h.slave
  · exact h.first

lemma alone_setBit {j : ℕ} (hj : j < 8) : Chip.Alone (setBit 0#8 j true) := .inr ⟨j, hj, rfl⟩

lemma Settled.select (h : Settled m p) : Answering m p.select.1 p.select.2 := by
  have hsel := select_selected h.cascaded h.idle
  have hc : ∀ i, Cascaded (p.taken i) 0x20#8 0x28#8 := fun i =>
    ⟨h.cascaded.master, h.cascaded.slave⟩
  generalize p.select = r at hsel
  cases hsel with
  | @own i hi hne hwants hfirst =>
    refine ⟨hc i, hi, alone_setBit hi, h.idle.2, h.masked, fun _ => ?_⟩
    have hmask := (Bool.not_eq_true' _).mp (Bool.and_eq_true_iff.mp hwants).2
    have hm := h.masked i (by omega)
    rw [Pics.masked, if_pos hi] at hm
    exact hm.symm.trans hmask
  | second hslave hmask hfirst =>
    exact ⟨hc 2, Nat.lt_of_sub_eq_succ rfl, alone_setBit (by decide), h.idle.2, h.masked,
      fun _ => (h.masked 2 (by decide)).symm.trans hmask⟩
  | nothing hasks =>
    refine ⟨?_, Nat.lt_of_sub_eq_succ rfl, .inl h.idle.1, h.idle.2, h.masked, fun h7 => absurd rfl h7⟩
    exact ⟨h.cascaded.master, h.cascaded.slave⟩

lemma Answering.supply (h : Answering m i p) : ∃ l, (p.supply i).1 = BitVec.ofNat 8 (32 + l) ∧
    Serving m l (p.supply i).2 ∧ (l < 8 → l = i) ∧
      (8 ≤ l → l ≠ 15 → p.requested l = true ∧ (p.supply i).2.requested l = false) := by
  have hsup := supply_supplied h.cascaded h.slave h.line_lt
  have hi := h.line_lt
  generalize p.supply i = r at hsup
  cases hsup with
  | own hne =>
    refine ⟨i, ?_, ⟨h.cascaded, by omega, hne, h.master, .inl h.slave, fun _ => h.slave, h.masked,
      fun h7 _ => h.unmasked h7, by omega⟩, fun _ => rfl, by omega⟩
    rw [h.cascaded.masterBase, BitVec.ofNat_add]
  | @second j hj hwants hfirst =>
    obtain ⟨hbit, hmask⟩ := Bool.and_eq_true_iff.mp hwants
    refine ⟨8 + j, ?_, ⟨?_, by omega, by omega, h.master, alone_setBit hj, by omega, h.masked,
      fun _ _ => ?_, fun _ => h.unmasked (by decide)⟩, by omega, fun _ _ => ?_⟩
    · rw [h.cascaded.slaveBase, ← Nat.add_assoc, BitVec.ofNat_add]
    · exact ⟨h.cascaded.master, h.cascaded.slave⟩
    · have hm := h.masked (8 + j) (by omega)
      rw [Pics.masked, if_neg (by omega), Nat.add_sub_cancel_left] at hm
      exact hm.symm.trans ((Bool.not_eq_true' _).mp hmask)
    · simp only [requested, if_neg (show ¬ 8 + j < 8 by omega), Nat.add_sub_cancel_left, hbit,
        getLsbD_setBit _ hj, if_true, and_self]
  | nothing hslave =>
    refine ⟨15, ?_, ⟨h.cascaded, by decide, by decide, h.master, .inl h.slave, fun _ => h.slave,
      h.masked, by omega, fun _ => h.unmasked (by decide)⟩, by omega, by omega⟩
    rw [h.cascaded.slaveBase]
    rfl

lemma picSendEoi_reads (irq : BitVec 8) : (picSendEoi irq).Reads DataPort := by
  unfold picSendEoi
  split <;> trivial

lemma Serving.sendEoi (h : Serving m l p) : Ensures bus Moves (picSendEoi (BitVec.ofNat 8 l))
    (fun _ q => Settled m q) p := by
  have hl := h.line_lt
  apply (ensures_run (picSendEoi_reads _) p).mono
  rintro _ q ⟨-, hq⟩
  refine Settled.moved ?_ hq
  have hnat : (BitVec.ofNat 8 l).toNat = l := by
    rw [BitVec.toNat_ofNat]
    omega
  unfold picSendEoi
  split
  · have hrun : ((do outb pic2Command picEoi; outb pic1Command picEoi : PortProgram Unit).run bus p).2 =
        ⟨p.master.endHighest, p.slave.endHighest⟩ := rfl
    rw [hrun, Chip.endHighest_alone h.master, Chip.endHighest_alone h.slave]
    refine ⟨?_, ⟨rfl, rfl⟩, h.masked⟩
    exact ⟨h.cascaded.master, h.cascaded.slave⟩
  · next hlt =>
    have hl8 : l < 8 := by
      rw [← hnat]
      exact Nat.lt_of_not_le hlt
    have hrun : ((outb pic1Command picEoi).run bus p).2 = ⟨p.master.endHighest, p.slave⟩ := rfl
    rw [hrun, Chip.endHighest_alone h.master]
    refine ⟨?_, ⟨rfl, h.first hl8⟩, h.masked⟩
    exact ⟨h.cascaded.master, h.cascaded.slave⟩

lemma pitInit_reads (frequency : BitVec 32) : (pitInit frequency).Reads DataPort := by
  unfold pitInit
  split <;> trivial

lemma pitInit_pics (frequency : BitVec 32) (p : Pics) :
    ((pitInit frequency).run bus p).2 = p := by
  unfold pitInit
  split <;> rfl

lemma kearlyIrqs_reads : kearlyIrqs.Reads DataPort := by
  refine Reads.bind trivial fun _ => ?_
  refine Reads.bind trivial fun _ => ?_
  exact Reads.bind (pitInit_reads _) fun _ => irqUpdateMask_reads _

lemma kearlyIrqs_run (p : Pics) : Settled (fun l => l ≠ 1) (kearlyIrqs.run bus p).2 := by
  obtain ⟨hremap, hidle⟩ := picRemap_run p
  have hdisable := picDisable_run hremap
  have hclear := irqClearMask_run (hdisable.cascaded _ _ hremap) 1#8
  have hrun : (kearlyIrqs.run bus p).2 = ((irqClearMask 1#8).run bus
      (picDisable.run bus ((picRemap 0x20#32 0x28#32).run bus p).2).2).2 := by
    rw [kearlyIrqs, run_bind, run_bind, run_bind, pitInit_pics]
  rw [hrun]
  refine ⟨hclear.cascaded _ _ (hdisable.cascaded _ _ hremap), hclear.idle (hdisable.idle hidle),
    fun l hl => ?_⟩
  rw [hclear.masked l hl, hdisable.masked l hl]
  simp

def Reading (m : ℕ → Bool) (b : Bool) (p : Pics) : Prop :=
  Settled m p ∧ p.master.readsInService = b ∧ p.slave.readsInService = b

lemma Reading.moved {b : Bool} (h : Reading m b p) (hm : Moves p q) : Reading m b q := by
  refine ⟨h.1.moved hm, ?_⟩
  obtain ⟨_, _, rfl⟩ := hm
  exact h.2

lemma Reading.read (h : Reading m true p) :
    (bus.read p pic1Command).1 = 0#8 ∧ (bus.read p pic2Command).1 = 0#8 := by
  have hmaster : (bus.read p pic1Command).1 = p.lead.readCommand := rfl
  have hslave : (bus.read p pic2Command).1 = p.slave.readCommand := rfl
  have hlead : p.lead.readsInService = true := h.2.1
  rw [hmaster, hslave, Chip.readCommand, Chip.readCommand, hlead, h.2.2]
  exact h.1.idle

lemma reading_writes {ocw3 : BitVec 8} {b : Bool}
    (hocw : ∀ c : Chip, c.writeCommand ocw3 = { c with readsInService := b })
    (h : Settled m p) (hm : Moves (bus.write p pic1Command ocw3) q) :
    Reading m b (bus.write q pic2Command ocw3) := by
  obtain ⟨_, _, rfl⟩ := hm
  have hwrite : ∀ t, bus.write t pic1Command ocw3 =
        { t with master := { t.master with readsInService := b } } ∧
      bus.write t pic2Command ocw3 = { t with slave := { t.slave with readsInService := b } } := by
    intro t
    rw [← hocw, ← hocw]
    exact ⟨rfl, rfl⟩
  rw [(hwrite _).2, (hwrite _).1]
  exact ⟨⟨⟨h.cascaded.master, h.cascaded.slave⟩, h.idle, h.masked⟩, rfl, rfl⟩

lemma picGetIrqReg_ensures {ocw3 : BitVec 32} {b : Bool}
    (hocw : ∀ c : Chip, c.writeCommand (ocw3.setWidth 8) = { c with readsInService := b })
    (h : Settled m p) : Ensures bus Moves (picGetIrqReg ocw3)
      (fun r q => Settled m q ∧ (b = true → r = 0#16)) p := by
  -- two writes, two reads and the return, each after moves of the devices
  intro t ht u hu
  have hread := reading_writes hocw (h.moved ht) hu
  intro x hx y hy z hz
  have hx' := hread.moved hx
  have hy' := hx'.moved hy
  refine ⟨(hy'.moved hz).1, fun hb => ?_⟩
  subst hb
  rw [hx'.read.2, hy'.read.1]
  rfl

lemma PicCall.ensures (c : PicCall) (h : c = .kearly ∨ Settled m p) :
    Ensures bus Moves c.program (fun r q => Settled (c.masks m) q ∧ (c = .getIsr → r = 0#16)) p := by
  have hdone : ∀ (f : PortProgram Unit) (m' : ℕ → Bool), f.Reads DataPort →
      Settled m' (f.run bus p).2 → c ≠ .getIsr → Ensures bus Moves (do f; return 0#16)
        (fun r q => Settled m' q ∧ (c = .getIsr → r = 0#16)) p := by
    intro f m' hf hrun hc
    apply Ensures.bind Moves.refl
    apply (ensures_run hf p).mono
    rintro _ q ⟨-, hq⟩ r hr
    exact ⟨hrun.moved (hq.trans hr), fun he => absurd he hc⟩
  have hremasked : ∀ {q : Pics} {m' m'' : ℕ → Bool}, Settled m p → Remasked p q m' →
      (∀ l < 16, m' l = m'' l) → Settled m'' q :=
    fun hs hr heq => ⟨hr.cascaded _ _ hs.cascaded, hr.idle hs.idle,
      fun l hl => (hr.masked l hl).trans (heq l hl)⟩
  have hline : ∀ line : Fin 40, (BitVec.ofNat 8 line).toNat = line.val := fun line => by
    rw [BitVec.toNat_ofNat]
    omega
  cases c with
  | kearly => exact hdone _ _ kearlyIrqs_reads (kearlyIrqs_run p) (by decide)
  | setMask line =>
    have hs := h.resolve_left (by simp)
    refine hdone _ _ (irqUpdateMask_reads _) ?_ (by simp)
    apply hremasked hs (irqSetMask_run hs.cascaded (BitVec.ofNat 8 line))
    intro l hl
    rw [hline, hs.masked l hl]
    rfl
  | clearMask line =>
    have hs := h.resolve_left (by simp)
    refine hdone _ _ (irqUpdateMask_reads _) ?_ (by simp)
    apply hremasked hs (irqClearMask_run hs.cascaded (BitVec.ofNat 8 line))
    intro l hl
    rw [hline, hs.masked l hl]
    rfl
  | disable =>
    have hs := h.resolve_left (by simp)
    refine hdone _ _ trivial ?_ (by simp)
    exact hremasked hs (picDisable_run hs.cascaded) fun _ _ => rfl
  | getIrr =>
    have hs := h.resolve_left (by simp)
    have hreg : Ensures bus Moves picGetIrr (fun r q => Settled m q ∧ (false = true → r = 0#16)) p :=
      picGetIrqReg_ensures (fun _ => rfl) hs
    exact hreg.mono fun r q hq => ⟨hq.1, by simp⟩
  | getIsr =>
    have hs := h.resolve_left (by simp)
    have hreg : Ensures bus Moves picGetIsr (fun r q => Settled m q ∧ (true = true → r = 0#16)) p :=
      picGetIrqReg_ensures (fun _ => rfl) hs
    exact hreg.mono fun r q hq => ⟨hq.1, fun _ => hq.2 rfl⟩

end Veni.Interrupts
