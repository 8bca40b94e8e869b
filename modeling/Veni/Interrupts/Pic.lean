import Veni.Lib.InterruptController

/-! The driver of the interrupt controllers, `arch/i386/interrupts/pic.c`, on the port functions of
`arch/i386/io.c`. -/

namespace Veni.Interrupts

open Veni.Lib

def inb (port : BitVec 16) : PortProgram (BitVec 8) := .input port

def outb (port : BitVec 16) (value : BitVec 8) : PortProgram Unit := .output port value

def ioWait : PortProgram Unit := outb 0x80#16 0#8

def pic1Command : BitVec 16 := 0x20#16

def pic1Data : BitVec 16 := 0x21#16

def pic2Command : BitVec 16 := 0xA0#16

def pic2Data : BitVec 16 := 0xA1#16

def picEoi : BitVec 8 := 0x20#8

def icw1Icw4 : BitVec 8 := 0x01#8

def icw1Init : BitVec 8 := 0x10#8

def icw48086 : BitVec 8 := 0x01#8

def cascadeIrq : ℕ := 2

def picReadIrr : BitVec 32 := 0x0a#32

def picReadIsr : BitVec 32 := 0x0b#32

def picSendEoi (irq : BitVec 8) : PortProgram Unit := do
  if irq ≥ 8#8 then
    outb pic2Command picEoi
  outb pic1Command picEoi

def picRemap (offset1 offset2 : BitVec 32) : PortProgram Unit := do
  outb pic1Command (icw1Init ||| icw1Icw4)
  ioWait
  outb pic2Command (icw1Init ||| icw1Icw4)
  ioWait
  outb pic1Data (offset1.setWidth 8)
  ioWait
  outb pic2Data (offset2.setWidth 8)
  ioWait
  outb pic1Data ((1#32 <<< cascadeIrq).setWidth 8)
  ioWait
  outb pic2Data 2#8
  ioWait
  outb pic1Data icw48086
  ioWait
  outb pic2Data icw48086
  ioWait
  outb pic1Data 0#8
  outb pic2Data 0#8

def picDisable : PortProgram Unit := do
  outb pic1Data 0xff#8
  outb pic2Data 0xff#8

/-- What the two mask functions share. In C the shift is not defined for a line from 40 on. -/
def irqUpdateMask (change : BitVec 32 → BitVec 32 → BitVec 32) (irqLine : BitVec 8) :
    PortProgram Unit := do
  let port := if irqLine < 8#8 then pic1Data else pic2Data
  let irqLine := if irqLine < 8#8 then irqLine else irqLine - 8#8
  let value ← inb port
  outb port ((change (value.setWidth 32) (1#32 <<< irqLine.toNat)).setWidth 8)

def irqSetMask : BitVec 8 → PortProgram Unit := irqUpdateMask fun value bit => value ||| bit

def irqClearMask : BitVec 8 → PortProgram Unit := irqUpdateMask fun value bit => value &&& ~~~bit

/-- C leaves open which of the two reads comes first. -/
def picGetIrqReg (ocw3 : BitVec 32) : PortProgram (BitVec 16) := do
  outb pic1Command (ocw3.setWidth 8)
  outb pic2Command (ocw3.setWidth 8)
  let high ← inb pic2Command
  let low ← inb pic1Command
  return high.setWidth 16 <<< 8 ||| low.setWidth 16

def picGetIrr : PortProgram (BitVec 16) := picGetIrqReg picReadIrr

def picGetIsr : PortProgram (BitVec 16) := picGetIrqReg picReadIsr

open Pics PortProgram

variable {p : Pics} {base base' : BitVec 8}

lemma writeData_ready {c : Chip} (h : c.stage = .ready) (v : BitVec 8) :
    c.writeData v = { c with mask := v } := by
  rw [Chip.writeData, h]

structure Remasked (p q : Pics) (masks : ℕ → Bool) : Prop where
  cascaded : ∀ b b', Cascaded p b b' → Cascaded q b b'
  idle : Idle p → Idle q
  masked : ∀ l < 16, q.masked l = masks l

lemma picRemap_run (p : Pics) : Cascaded ((picRemap 0x20#32 0x28#32).run bus p).2 0x20#8 0x28#8 ∧
    Idle ((picRemap 0x20#32 0x28#32).run bus p).2 := by
  refine ⟨?_, rfl, rfl⟩
  constructor <;> rfl

lemma Remasked.congr {q : Pics} {masks masks' : ℕ → Bool} (h : Remasked p q masks)
    (heq : ∀ l < 16, masks l = masks' l) : Remasked p q masks' :=
  ⟨h.cascaded, h.idle, fun l hl => (h.masked l hl).trans (heq l hl)⟩

lemma remasked_first (h : Cascaded p base base') (v : BitVec 8) :
    Remasked p (bus.write p pic1Data v) fun l => if l < 8 then v.getLsbD l else p.masked l := by
  have hwrite : bus.write p pic1Data v = { p with master := { p.master with mask := v } } := by
    rw [← writeData_ready h.masterStage]
    rfl
  rw [hwrite]
  refine ⟨fun b b' hb => ?_, id, fun l _ => ?_⟩
  · exact ⟨hb.master, hb.slave⟩
  · unfold masked
    split <;> rfl

lemma remasked_second (h : Cascaded p base base') (v : BitVec 8) :
    Remasked p (bus.write p pic2Data v) fun l => if l < 8 then p.masked l else v.getLsbD (l - 8) := by
  have hwrite : bus.write p pic2Data v = { p with slave := { p.slave with mask := v } } := by
    rw [← writeData_ready h.slaveStage]
    rfl
  rw [hwrite]
  refine ⟨fun b b' hb => ?_, id, fun l _ => ?_⟩
  · exact ⟨hb.master, hb.slave⟩
  · unfold masked
    split <;> rfl

lemma picDisable_run (h : Cascaded p base base') :
    Remasked p (picDisable.run bus p).2 fun _ => true := by
  have hfirst := remasked_first h 0xff#8
  have hsecond := remasked_second (hfirst.cascaded _ _ h) 0xff#8
  have hall : ∀ l < 8, (0xff#8).getLsbD l = true := by decide
  refine ⟨fun b b' hb => hsecond.cascaded _ _ (hfirst.cascaded _ _ hb),
    fun hi => hsecond.idle (hfirst.idle hi), fun l hl => ?_⟩
  refine (hsecond.masked l hl).trans ?_
  split
  · next hlt => rw [hfirst.masked l hl, if_pos hlt, hall l hlt]
  · exact hall (l - 8) (by omega)

structure Bitwise (change : BitVec 32 → BitVec 32 → BitVec 32) (op : Bool → Bool → Bool) : Prop where
  bits : ∀ x y i, i < 8 → (change x y).getLsbD i = op (x.getLsbD i) (y.getLsbD i)
  keeps : ∀ b, op b false = b

variable {change : BitVec 32 → BitVec 32 → BitVec 32} {op : Bool → Bool → Bool}

lemma Bitwise.change_bit (hop : Bitwise change op) (m : BitVec 8) (k : ℕ) {i : ℕ} (hi : i < 8) :
    ((change (m.setWidth 32) (1#32 <<< k)).setWidth 8).getLsbD i =
      if i = k then op (m.getLsbD i) true else m.getLsbD i := by
  have hbit : (1#32 <<< k).getLsbD i = decide (i = k) := by
    rw [BitVec.getLsbD_shiftLeft, BitVec.getLsbD_one]
    by_cases h : i < k
    · simp [h, Nat.ne_of_lt h]
    · have hiff : i - k = 0 ↔ i = k := by omega
      have hlt : i < 32 := by omega
      simp [h, hiff, hlt]
  have hlt : i < 32 := by omega
  rw [BitVec.getLsbD_setWidth, hop.bits _ _ _ hi, hbit, BitVec.getLsbD_setWidth]
  simp only [hi, hlt, decide_true, Bool.true_and]
  split <;> simp [*, hop.keeps]

lemma irqUpdateMask_run (hop : Bitwise change op) (h : Cascaded p base base') (irqLine : BitVec 8) :
    Remasked p ((irqUpdateMask change irqLine).run bus p).2
      fun l => if l = irqLine.toNat then op (p.masked l) true else p.masked l := by
  by_cases hline : irqLine < 8#8
  · have hlt : irqLine.toNat < 8 := hline
    have hrun : ((irqUpdateMask change irqLine).run bus p).2 = bus.write p pic1Data
        ((change (p.master.mask.setWidth 32) (1#32 <<< irqLine.toNat)).setWidth 8) := by
      simp only [irqUpdateMask, if_pos hline]
      rfl
    rw [hrun]
    apply (remasked_first h _).congr
    intro l _
    by_cases hl : l < 8
    · rw [if_pos hl, hop.change_bit _ _ hl]
      simp only [masked, if_pos hl]
    · rw [if_neg hl, if_neg (by omega)]
  · have hle : 8 ≤ irqLine.toNat := Nat.le_of_not_lt hline
    have hsub : (irqLine - 8#8).toNat = irqLine.toNat - 8 := BitVec.toNat_sub_of_le hle
    have hrun : ((irqUpdateMask change irqLine).run bus p).2 = bus.write p pic2Data
        ((change (p.slave.mask.setWidth 32) (1#32 <<< (irqLine - 8#8).toNat)).setWidth 8) := by
      simp only [irqUpdateMask, if_neg hline]
      rfl
    rw [hrun, hsub]
    apply (remasked_second h _).congr
    intro l hl16
    by_cases hl : l < 8
    · rw [if_pos hl, if_neg (by omega)]
    · have hiff : l - 8 = irqLine.toNat - 8 ↔ l = irqLine.toNat := by omega
      rw [if_neg hl, hop.change_bit _ _ (by omega)]
      simp only [masked, if_neg hl, hiff]

lemma irqUpdateMask_reads (irqLine : BitVec 8) : (irqUpdateMask change irqLine).Reads DataPort := by
  refine ⟨?_, fun _ => trivial⟩
  split
  · exact .inl rfl
  · exact .inr rfl

lemma irqSetMask_run (h : Cascaded p base base') (irqLine : BitVec 8) :
    Remasked p ((irqSetMask irqLine).run bus p).2 fun l => l = irqLine.toNat || p.masked l := by
  have hop : Bitwise (fun value bit => value ||| bit) (· || ·) :=
    ⟨fun _ _ _ _ => BitVec.getLsbD_or, Bool.or_false⟩
  apply (irqUpdateMask_run hop h irqLine).congr
  intro l _
  split <;> simp [*]

lemma irqClearMask_run (h : Cascaded p base base') (irqLine : BitVec 8) :
    Remasked p ((irqClearMask irqLine).run bus p).2 fun l => l ≠ irqLine.toNat && p.masked l := by
  have hop : Bitwise (fun value bit => value &&& ~~~bit) (fun x y => x && !y) := by
    refine ⟨fun x y i hi => ?_, fun b => Bool.and_true b⟩
    have hlt : i < 32 := by omega
    simp [hlt]
  apply (irqUpdateMask_run hop h irqLine).congr
  intro l _
  split <;> simp [*]

end Veni.Interrupts
