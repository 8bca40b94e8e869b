import Veni.Interrupts.IrqProtocol

/-! Every interrupt that is pending and not masked is served once the devices are quiet. -/

namespace Veni.Interrupts

open Veni.Lib Veni.Lib.Pics Veni.Lib.PortProgram Veni.Lib.Transition Veni.Libc Veni.Drivers
open Veni.Drivers.Serial

/-- A step of the processor on its own. -/
def IrqEvent.own : IrqEvent → Bool
  | .interrupt | .pulse | .handle _ _ | .access => true
  | _ => false

lemma unhandled_text (l : ℕ) (hl : l < 16) :
    (Console.Print.printf (cstring "Unhandled IRQ: %d\n") [.int ((BitVec.ofNat 8 l).setWidth 32)]).Sound := by
  have hall : ∀ l < 16, ∃ n < 32, (render (cstring "Unhandled IRQ: %d\n")
      [.int ((BitVec.ofNat 8 l).setWidth 32)]).map List.length = some n := by
    decide +kernel
  obtain ⟨n, hle, hn⟩ := hall l hl
  obtain ⟨t, ht, rfl⟩ := Option.map_eq_some_iff.mp hn
  exact ⟨t, ht, hle.le.trans (by decide)⟩

variable {w : UartWorld} {d : Devices} {s t : IrqSystem}

lemma handleIrq_returns (hfair : Uart.Fair w) (e : Devices) {l : ℕ} (hl : l < 16)
    (scs : List (BitVec 8)) : ∃ n e', handleIrq w n e (BitVec.ofNat 8 l) scs = some e' := by
  unfold handleIrq
  split
  · exact ⟨0, _, rfl⟩
  · exact ⟨0, _, rfl⟩
  · obtain ⟨text, htext, hlen⟩ := unhandled_text l hl
    obtain ⟨n, u, hu⟩ := serialWrite_returns hfair e.console.uart (text.map UInt8.toBitVec)
    have hprint := Console.print_eq htext hlen (w := w) (n := n) e.console
    rw [Console.passes_eq, hu, Option.map_some, Option.map_some, Console.print] at hprint
    exact ⟨n, _, by rw [hprint, Option.map_some]⟩

lemma requested_sendEoi (irq : BitVec 8) (p : Pics) (l : ℕ) :
    ((picSendEoi irq).run bus p).2.requested l = p.requested l := by
  unfold picSendEoi
  split
  · have hrun : ((do outb pic2Command picEoi; outb pic1Command picEoi : PortProgram Unit).run bus p).2 =
        ⟨p.master.endHighest, p.slave.endHighest⟩ := rfl
    rw [hrun]
    simp only [requested, Chip.request_endHighest]
  · have hrun : ((outb pic1Command picEoi).run bus p).2 = ⟨p.master.endHighest, p.slave⟩ := rfl
    rw [hrun]
    simp only [requested, Chip.request_endHighest]

namespace IrqSystem

lemma run_ending (f : PortProgram Unit) (hc : s.cpu = .ending f) :
    ∃ es, (∀ e ∈ es, e.own = true) ∧ Run (Step w) s es
      { s with cpu := .free, interruptFlag := true, pics := (f.run bus s.pics).2 } := by
  induction f generalizing s with
  | done a =>
    refine ⟨[.access], by simp [IrqEvent.own], .single ?_⟩
    simp only [Step, next, accessStep, hc]
    rfl
  | inb port next ih =>
    obtain ⟨es, hown, hrun⟩ := ih (bus.read s.pics port).1
      (s := { s with cpu := .ending (next (bus.read s.pics port).1), pics := (bus.read s.pics port).2 }) rfl
    refine ⟨.access :: es, by simpa [IrqEvent.own] using hown, .cons ?_ hrun⟩
    simp only [Step, IrqSystem.next, accessStep, hc]
    rfl
  | outb port value next ih =>
    obtain ⟨es, hown, hrun⟩ := ih
      (s := { s with cpu := .ending next, pics := bus.write s.pics port value }) rfl
    refine ⟨.access :: es, by simpa [IrqEvent.own] using hown, .cons ?_ hrun⟩
    simp only [Step, IrqSystem.next, accessStep, hc]
    rfl

lemma pulses_first {m : ℕ → Bool} {p : Pics} (h : Settled m p) (hasks : p.asks = true) :
    ∃ k < 16, serviceOrder.find? p.wants = some k ∧
      (p.select.2.supply p.select.1).1 = irqVector k ∧
      ∀ l < 16, l ≠ 2 → (p.select.2.supply p.select.1).2.requested l = (l != k && p.requested l) := by
  have hselected := select_selected h.cascaded h.idle
  have hanswering := h.select
  generalize p.select = r at hselected hanswering
  cases hselected with
  | @own i hi hne hwants hfirst =>
    have hsupplied := supply_supplied hanswering.cascaded hanswering.slave hi
    refine ⟨i, by omega, find_own h.idle hi hne hwants hfirst, ?_⟩
    dsimp only at hsupplied ⊢
    generalize (p.taken i).supply i = r at hsupplied
    cases hsupplied with
    | own =>
      refine ⟨?_, fun l hl _ => requested_taken hi hl⟩
      rw [hanswering.cascaded.masterBase, irqVector, BitVec.ofNat_add]
    | second => exact absurd rfl hne
    | nothing => exact absurd rfl hne
  | second hslave hmask hfirst =>
    have hsupplied := supply_supplied hanswering.cascaded hanswering.slave (by decide : 2 < 8)
    dsimp only at hsupplied ⊢
    generalize (p.taken 2).supply 2 = r at hsupplied
    cases hsupplied with
    | own hne => exact absurd rfl hne
    | @second j hj hwants hbefore =>
      refine ⟨8 + j, by omega, find_second hmask hfirst hj hwants hbefore, ?_, fun l hl hne => ?_⟩
      · rw [hanswering.cascaded.slaveBase, irqVector, ← Nat.add_assoc, BitVec.ofNat_add]
      · have htaken : (p.taken 2).requested l = p.requested l := by
          rw [requested_taken (by decide) hl]
          simp [hne]
        exact (requested_clear hj _ l).trans (by rw [htaken])
    | nothing hnone =>
      rw [Option.isSome_iff_ne_none] at hslave
      exact absurd hnone hslave
  | nothing hno =>
    rw [hno] at hasks
    cases hasks

lemma serve_one (hfair : Uart.Fair w) (h : Inv d s) (hc : s.cpu = .free)
    (hf : s.interruptFlag = true) (hasks : s.pics.asks = true) :
    ∃ es t k, (∀ e ∈ es, e.own = true) ∧ Run (Step w) s es t ∧ t.cpu = .free ∧
      t.interruptFlag = true ∧ k < 16 ∧ serviceOrder.find? s.pics.wants = some k ∧
      t.returned = s.returned ∧ t.delivered = s.delivered ++ [irqVector k] ∧
      ∀ l < 16, l ≠ 2 → t.pics.requested l = (l != k && s.pics.requested l) := by
  have hsettled := h.placed
  simp only [Placed, hc] at hsettled
  obtain ⟨k, hk, hfind, hv, hrequested⟩ := pulses_first hsettled hasks
  obtain ⟨n, e, he⟩ := handleIrq_returns hfair s.devices hk []
  have hhandler : irqHandler w n s.devices ((irqVector k).setWidth 32) [] =
      some (e, picSendEoi (BitVec.ofNat 8 k)) := by
    simp only [irqHandler, irq_irqVector hk, he, Option.map_some]
  have hinterrupt : Step w s .interrupt { s with cpu := .asked } := by
    simp only [Step, next, hc, hf, hasks, Bool.and_self, if_true]
  have hselect : Step w { s with cpu := .asked } .pulse
      { s with cpu := .answering s.pics.select.1, pics := s.pics.select.2 } := rfl
  generalize s.pics.select = r at *
  have hsupply : Step w { s with cpu := .answering r.1, pics := r.2 } .pulse
      ⟨(r.2.supply r.1).2, s.devices, .entered (irqVector k), false, s.raised,
        s.delivered ++ [irqVector k], s.returned⟩ := by
    simp only [Step, next, pulseStep, hv]
  generalize (r.2.supply r.1).2 = q at *
  have hhandle : Step w
      ⟨q, s.devices, .entered (irqVector k), false, s.raised, s.delivered ++ [irqVector k], s.returned⟩
      (.handle n [])
      ⟨q, e, .ending (picSendEoi (BitVec.ofNat 8 k)), false, s.raised, s.delivered ++ [irqVector k],
        s.returned⟩ := by
    have hlo := toNat_irqVector hk
    simp only [Step, next, hlo]
    rw [if_pos (by omega), hhandler]
    rfl
  obtain ⟨es, hown, hend⟩ := run_ending (w := w) (picSendEoi (BitVec.ofNat 8 k))
    (s := ⟨q, e, .ending (picSendEoi (BitVec.ofNat 8 k)), false, s.raised,
      s.delivered ++ [irqVector k], s.returned⟩) rfl
  refine ⟨.interrupt :: .pulse :: .pulse :: .handle n [] :: es, _, k, ?_,
    .cons hinterrupt (.cons hselect (.cons hsupply (.cons hhandle hend))), rfl, rfl, hk, hfind, rfl,
    rfl, fun l hl hne => ?_⟩
  · simpa [IrqEvent.own] using hown
  · rw [← hrequested l hl hne]
    exact requested_sendEoi _ q l

lemma order_lt {l : ℕ} (hl : l ∈ serviceOrder) : l < 16 ∧ l ≠ 2 :=
  (by decide : ∀ l ∈ serviceOrder, l < 16 ∧ l ≠ 2) l hl

lemma serve_pending (hfair : Uart.Fair w) (h : Inv d s) (hc : s.cpu = .free)
    (hf : s.interruptFlag = true) :
    ∃ es t, (∀ e ∈ es, e.own = true) ∧ Run (Step w) s es t ∧ t.cpu = .free ∧
      t.pics.asks = false ∧
      t.delivered = s.delivered ++ (serviceOrder.filter s.pics.wants).map irqVector := by
  induction hn : (serviceOrder.filter s.pics.wants).length generalizing s with
  | zero =>
    have hnil := List.length_eq_zero_iff.mp hn
    refine ⟨[], s, by simp, .nil s, hc, ?_, by simp [hnil]⟩
    apply Bool.eq_false_iff.mpr
    intro hasks
    obtain ⟨_, _, k, _, _, _, _, _, hfind, _⟩ := serve_one hfair h hc hf hasks
    rw [filter_find (by decide) hfind] at hnil
    cases hnil
  | succ n ih =>
    have hsettled := h.placed
    simp only [Placed, hc] at hsettled
    obtain ⟨l, hl⟩ := List.exists_mem_of_length_pos (show 0 < _ by omega : 0 < (serviceOrder.filter s.pics.wants).length)
    obtain ⟨hmem, hwants⟩ := List.mem_filter.mp hl
    have hasks := asks_of_wants hsettled.idle (order_lt hmem).1 hwants
    obtain ⟨es, t, k, hown, hrun, htc, htf, hk, hfind, hreturned, hdelivered, hrequested⟩ :=
      serve_one hfair h hc hf hasks
    have hinv : Inv d t := hrun.invariant (fun _ _ _ hs hstep => hs.step hstep) h
    have hplaced := hinv.placed
    simp only [Placed, htc] at hplaced
    -- what is left to serve are the others
    have hrest : serviceOrder.filter t.pics.wants =
        serviceOrder.filter fun l => l != k && s.pics.wants l := by
      apply List.filter_congr
      intro l hl
      obtain ⟨hlt, hne⟩ := order_lt hl
      simp only [wants, hrequested l hlt hne, hplaced.masked l hlt, hplaced.masked 2 (by decide),
        hreturned, hsettled.masked l hlt, hsettled.masked 2 (by decide), Bool.and_assoc]
    have hfilter := filter_find (by decide) hfind
    rw [hfilter, List.length_cons, ← hrest] at hn
    obtain ⟨es', u, hown', hrun', huc, hquiet, hdelivered'⟩ := ih hinv htc htf (Nat.succ.inj hn)
    refine ⟨es ++ es', u, fun e he => ?_, hrun.append hrun', huc, hquiet, ?_⟩
    · rcases List.mem_append.mp he with he | he
      · exact hown e he
      · exact hown' e he
    · rw [hdelivered', hdelivered, hfilter, hrest, List.append_assoc]
      rfl

/-- From every state that a run reaches in other code with interrupts on, and as long as no device
raises a line and none takes its request back: exactly the lines that are requested and not masked are
served, each once, in the order of their priority, and the controllers ask for nothing more. -/
theorem pending_served (w : UartWorld) (hfair : Uart.Fair w) (p : Pics) (d : Devices)
    {es : List IrqEvent} {s : IrqSystem} (h : Run (Step w) (boot p d) es s) (hc : s.cpu = .free)
    (hf : s.interruptFlag = true) :
    ∃ es' t, (∀ e ∈ es', e.own = true) ∧ Run (Step w) s es' t ∧ t.cpu = .free ∧
      t.pics.asks = false ∧
      t.delivered = s.delivered ++ (serviceOrder.filter s.pics.wants).map irqVector :=
  serve_pending hfair (run_inv h) hc hf

def bothEvents : List IrqEvent :=
  List.replicate 26 .access ++ [.call (.clearMask ⟨0, by decide⟩), .access, .access, .access, .sti,
    .drive ⟨1, by decide⟩ true, .drive ⟨0, by decide⟩ true]

theorem pending_served_both :
    ∃ s, bothEvents.foldlM (next slowWorld) (boot strayPics someDevices) = some s ∧
      ∃ es' t, (∀ e ∈ es', e.own = true) ∧ Run (Step slowWorld) s es' t ∧ t.cpu = .free ∧
        t.pics.asks = false ∧
        t.delivered = s.delivered ++ (serviceOrder.filter s.pics.wants).map irqVector := by
  have hruns : (bothEvents.foldlM (next slowWorld) (boot strayPics someDevices)).isSome := by
    decide
  obtain ⟨s, hs⟩ := Option.isSome_iff_exists.mp hruns
  refine ⟨s, hs, pending_served _ slowWorld_fair _ _ (Run.of_foldlM hs) ?_ ?_⟩
  · cases hs
    rfl
  · cases hs
    rfl

end IrqSystem

end Veni.Interrupts
