import Mathlib.Tactic.Ring
import Veni.Interrupts.Pic
import Veni.Lib.IntervalTimer

/-! The timer, `arch/i386/drivers/pit/pit.c`. -/

namespace Veni.Drivers

open Veni.Lib Veni.Interrupts

structure Pit where
  tickCount : BitVec 32

namespace Pit

def pitChannel0 : BitVec 16 := 0x40#16

def pitCommand : BitVec 16 := 0x43#16

def pitMode : BitVec 8 := 0x36#8

def pitHandler (p : Pit) : Pit := { p with tickCount := p.tickCount + 1#32 }

def getTicks (p : Pit) : BitVec 32 := p.tickCount

def pitInit (frequency : BitVec 32) : PortProgram Unit :=
  if frequency = 0#32 then pure ()
  else do
    let divisor := (1193182#32 / frequency).setWidth 16
    outb pitCommand pitMode
    outb pitChannel0 ((divisor &&& 0xFF#16).setWidth 8)
    outb pitChannel0 ((divisor >>> 8).setWidth 8)

open IntervalTimer PortProgram

lemma pitInit_run {frequency : BitVec 32} (hf : frequency ≠ 0#32) (t : IntervalTimer) :
    ((pitInit frequency).run bus t).2 =
      { access := 3#2
        mode := 3#3
        decimal := false
        low := none
        reload := (1193182#32 / frequency).setWidth 16 } := by
  rw [pitInit, if_neg hf]
  generalize (1193182#32 / frequency).setWidth 16 = divisor
  have hbytes : (divisor >>> 8).setWidth 8 ++ (divisor &&& 0xFF#16).setWidth 8 = divisor := by
    have hmask : ∀ i < 8, (0xFF#16).getLsbD i = true := by decide
    apply BitVec.eq_of_getLsbD_eq
    intro i hi
    simp only [BitVec.getLsbD_append, BitVec.getLsbD_setWidth, BitVec.getLsbD_ushiftRight,
      BitVec.getLsbD_and]
    by_cases h : i < 8
    · simp [h, hmask i h]
    · have hlt : i - 8 < 8 := by omega
      have hidx : 8 + (i - 8) = i := by omega
      simp [h, hlt, hidx]
  have hset : t.writeControl pitMode = ⟨3#2, 3#3, false, none, t.reload⟩ := rfl
  have hrun : ((do
      outb pitCommand pitMode
      outb pitChannel0 ((divisor &&& 0xFF#16).setWidth 8)
      outb pitChannel0 ((divisor >>> 8).setWidth 8) : PortProgram Unit).run bus t).2 =
        ((t.writeControl pitMode).writeCount ((divisor &&& 0xFF#16).setWidth 8)).writeCount
          ((divisor >>> 8).setWidth 8) := rfl
  rw [hrun, hset]
  exact congrArg (IntervalTimer.mk 3#2 3#3 false none) hbytes

lemma period_quotient {q : ℕ} {t : IntervalTimer} (h : t.reload = BitVec.ofNat 16 q) :
    t.period = q ↔ q ≠ 0 ∧ q ≤ 65536 := by
  have hto : t.reload.toNat = q % 65536 := by rw [h, BitVec.toNat_ofNat]
  have hzero : t.reload = 0#16 ↔ q % 65536 = 0 := by
    rw [← hto, ← BitVec.toNat_inj]
    rfl
  unfold period
  split
  · next h0 =>
    have hmod := hzero.mp h0
    omega
  · next h0 =>
    have hmod := mt hzero.mpr h0
    rw [hto]
    omega

/-- From any state of the timer, also between the two bytes of a count: `pit_init` sets up the square
wave, and the period is the quotient rounded down, one that this mode can count, if and only if the
frequency is from 19 to 596591. -/
theorem pitInit_period (frequency : BitVec 32) (hf : frequency ≠ 0#32) (t : IntervalTimer) :
    let u := ((pitInit frequency).run bus t).2
    u.mode = 3#3 ∧ u.decimal = false ∧ u.low = none ∧
      ((2 ≤ u.period ∧ u.period * frequency.toNat ≤ 1193182 ∧
          1193182 < (u.period + 1) * frequency.toNat) ↔
        19 ≤ frequency.toNat ∧ frequency.toNat ≤ 596591) := by
  intro u
  have hu := pitInit_run hf t
  have hpos : 0 < frequency.toNat := Nat.pos_of_ne_zero fun h => hf (BitVec.eq_of_toNat_eq h)
  have hreload : u.reload = BitVec.ofNat 16 (1193182 / frequency.toNat) := by
    apply BitVec.eq_of_toNat_eq
    rw [show u = _ from hu, BitVec.toNat_setWidth, BitVec.toNat_udiv, BitVec.toNat_ofNat]
    rfl
  refine ⟨by rw [show u = _ from hu], by rw [show u = _ from hu], by rw [show u = _ from hu], ?_⟩
  have hquotient := period_quotient hreload
  have hrounded : u.period * frequency.toNat ≤ 1193182 ∧
      1193182 < (u.period + 1) * frequency.toNat ↔ u.period = 1193182 / frequency.toNat := by
    rw [← Nat.le_div_iff_mul_le hpos, ← Nat.div_lt_iff_lt_mul hpos]
    omega
  rw [hrounded]
  have htwo : 2 ≤ 1193182 / frequency.toNat ↔ frequency.toNat ≤ 596591 := by
    rw [Nat.le_div_iff_mul_le hpos]
    omega
  have hmax : 1193182 / frequency.toNat ≤ 65536 ↔ 19 ≤ frequency.toNat := by
    rw [← Nat.lt_succ_iff, Nat.div_lt_iff_lt_mul hpos]
    omega
  constructor
  · rintro ⟨hle, heq⟩
    have hfits := hquotient.mp heq
    exact ⟨hmax.mp hfits.2, htwo.mp (heq ▸ hle)⟩
  · rintro ⟨hlow, hhigh⟩
    have hq := htwo.mpr hhigh
    have heq := hquotient.mpr ⟨by omega, hmax.mpr hlow⟩
    exact ⟨heq.symm ▸ hq, heq⟩

theorem pitInit_period_hundred :
    let u := ((pitInit 100#32).run bus ⟨3#2, 2#3, false, some 0x9C#8, 0#16⟩).2
    u.mode = 3#3 ∧ u.decimal = false ∧ u.low = none ∧
      ((2 ≤ u.period ∧ u.period * (100#32).toNat ≤ 1193182 ∧
          1193182 < (u.period + 1) * (100#32).toNat) ↔
        19 ≤ (100#32).toNat ∧ (100#32).toNat ≤ 596591) :=
  pitInit_period 100#32 (by decide) _

end Pit

end Veni.Drivers
