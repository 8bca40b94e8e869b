import Veni.Interrupts.Irq

/-! What holds of the interrupts in every run: which are delivered, that each is ended, and that none
is delivered twice. -/

namespace Veni.Interrupts

open Veni.Lib Veni.Lib.Pics Veni.Lib.PortProgram Veni.Lib.Transition Veni.Drivers

def maskedBy (calls : List (PicCall × BitVec 16)) : ℕ → Bool :=
  calls.foldl (fun m c => c.1.masks m) fun l => l ≠ 1

def irqVector (l : ℕ) : BitVec 8 := BitVec.ofNat 8 (32 + l)

def Cpu.answers (l : ℕ) : Cpu → ℕ
  | .answering i => if i = l then 1 else 0
  | _ => 0

def Cpu.enters (v : BitVec 8) : Cpu → ℕ
  | .entered u => if u = v then 1 else 0
  | _ => 0

/-- The event is no call that unmasks line `l`. -/
def IrqEvent.Keeps (l : ℕ) : IrqEvent → Prop
  | .call (.clearMask line) => line.val ≠ l
  | _ => True

namespace IrqSystem

def Placed (s : IrqSystem) : Prop :=
  match s.cpu with
  | .free | .asked => Settled (maskedBy s.returned) s.pics
  | .calling c rest =>
    s.interruptFlag = false ∧ Ensures bus Moves rest
      (fun r q => Settled (c.masks (maskedBy s.returned)) q ∧ (c = .getIsr → r = 0#16)) s.pics
  | .answering i => Answering (maskedBy s.returned) i s.pics
  | .entered v => ∃ l, v = irqVector l ∧ Serving (maskedBy s.returned) l s.pics
  | .ending rest => Ensures bus Moves rest (fun _ q => Settled (maskedBy s.returned) q) s.pics

def due (s : IrqSystem) (l : ℕ) : ℕ :=
  s.delivered.count (irqVector l) + s.cpu.answers l + (s.pics.requested l).toNat

structure Inv (d : Devices) (s : IrqSystem) : Prop where
  placed : s.Placed
  vectors : ∀ v ∈ s.delivered, ∃ l < 16, l ≠ 2 ∧ v = irqVector l
  -- a request may have been there at the start
  once : ∀ l < 16, l ≠ 2 → l ≠ 7 → l ≠ 15 → s.due l ≤ s.raised.count l + 1
  ticks : s.devices.pit.tickCount + BitVec.ofNat 32 (s.cpu.enters (irqVector 0)) =
    d.pit.tickCount + BitVec.ofNat 32 (s.delivered.count (irqVector 0))
  isr : ∀ r, (PicCall.getIsr, r) ∈ s.returned → r = 0#16

variable {w : UartWorld} {d : Devices} {s t : IrqSystem}

lemma irqVector_inj {k l : ℕ} (hk : k < 16) (hl : l < 16) (h : irqVector k = irqVector l) : k = l := by
  have hnat := congrArg BitVec.toNat h
  rw [irqVector, irqVector, BitVec.toNat_ofNat, BitVec.toNat_ofNat] at hnat
  omega

lemma toNat_irqVector {l : ℕ} (hl : l < 16) : (irqVector l).toNat = 32 + l := by
  rw [irqVector, BitVec.toNat_ofNat]
  omega

lemma Placed.moved (h : s.Placed) {q : Pics} (hm : Moves s.pics q) :
    ({ s with pics := q } : IrqSystem).Placed := by
  unfold Placed at h ⊢
  have htrans : ∀ x y z, Moves x y → Moves y z → Moves x z := fun _ _ _ => .trans
  cases hc : s.cpu with
  | free =>
    simp only [hc] at h ⊢
    exact h.moved hm
  | calling c rest =>
    simp only [hc] at h ⊢
    exact ⟨h.1, h.2.moved htrans hm⟩
  | asked =>
    simp only [hc] at h ⊢
    exact h.moved hm
  | answering i =>
    simp only [hc] at h ⊢
    exact h.moved hm
  | entered v =>
    simp only [hc] at h ⊢
    obtain ⟨l, hv, hl⟩ := h
    exact ⟨l, hv, hl.moved hm⟩
  | ending rest =>
    simp only [hc] at h ⊢
    exact h.moved htrans hm

lemma Inv.drive (h : Inv d s) (line : Fin 16) (up : Bool) :
    Inv d
      { s with
        pics := s.pics.drive line up
        raised := if up then s.raised ++ [line.val] else s.raised } := by
  refine ⟨h.placed.moved (moves_drive _ _ _), h.vectors, fun l hl h2 h7 h15 => ?_, h.ticks, h.isr⟩
  have honce := h.once l hl h2 h7 h15
  unfold due at honce ⊢
  simp only [requested_drive line.isLt up hl h2]
  by_cases he : l = line
  · rw [if_pos he]
    cases up with
    | false =>
      simp only [Bool.toNat_false, Bool.false_eq_true, if_false]
      omega
    | true =>
      have hle := Bool.toNat_le (s.pics.requested l)
      simp only [Bool.toNat_true, if_true, List.count_append, List.count_singleton, he,
        beq_self_eq_true]
      rw [he] at honce
      omega
  · rw [if_neg he]
    cases up with
    | false => exact honce
    | true =>
      simp only [if_true, List.count_append, List.count_singleton]
      omega

lemma toNat_le_of_imp {b c : Bool} (h : b = true → c = true) : b.toNat ≤ c.toNat := by
  cases b with
  | false => exact Nat.zero_le _
  | true => rw [h rfl]

lemma Inv.go (h : Inv d s) (ht : t.Placed) (hdevices : t.devices = s.devices)
    (hraised : t.raised = s.raised) (hdelivered : t.delivered = s.delivered)
    (hanswers : ∀ l, t.cpu.answers l = s.cpu.answers l)
    (henters : t.cpu.enters (irqVector 0) = s.cpu.enters (irqVector 0))
    (hrequested : ∀ l, t.pics.requested l = true → s.pics.requested l = true)
    (hisr : ∀ r, (PicCall.getIsr, r) ∈ t.returned → r = 0#16) : Inv d t := by
  refine ⟨ht, hdelivered ▸ h.vectors, fun l hl h2 h7 h15 => ?_, ?_, hisr⟩
  · have honce := h.once l hl h2 h7 h15
    have hle := toNat_le_of_imp (hrequested l)
    unfold due at honce ⊢
    rw [hdelivered, hraised, hanswers]
    omega
  · rw [hdevices, hdelivered, henters]
    exact h.ticks

lemma maskedBy_append (cs : List (PicCall × BitVec 16)) (c : PicCall) (r : BitVec 16) :
    maskedBy (cs ++ [(c, r)]) = c.masks (maskedBy cs) := by
  rw [maskedBy, List.foldl_append]
  rfl

lemma requested_advance {α : Type} {f g : PortProgram α} {p q : Pics}
    (h : f.advance bus p = some (g, q)) (l : ℕ) (hl : q.requested l = true) :
    p.requested l = true := by
  cases f with
  | done a => cases h
  | inb port next =>
    cases h
    exact hl
  | outb port value next =>
    cases h
    exact requested_write port value hl

lemma Inv.callAccess (h : Inv d s) {c : PicCall} {f g : PortProgram (BitVec 16)} {q : Pics}
    (hc : s.cpu = .calling c f) (hf : f.advance bus s.pics = some (g, q)) :
    Inv d { s with cpu := .calling c g, pics := q } := by
  have hplaced := h.placed
  simp only [Placed, hc] at hplaced
  refine h.go ?_ rfl rfl rfl (fun l => by rw [hc]; rfl) (by rw [hc]; rfl) (requested_advance hf) h.isr
  exact ⟨hplaced.1, hplaced.2.advance Moves.refl hf⟩

lemma Inv.endAccess (h : Inv d s) {f g : PortProgram Unit} {q : Pics} (hc : s.cpu = .ending f)
    (hf : f.advance bus s.pics = some (g, q)) : Inv d { s with cpu := .ending g, pics := q } := by
  have hplaced := h.placed
  simp only [Placed, hc] at hplaced
  refine h.go ?_ rfl rfl rfl (fun l => by rw [hc]; rfl) (by rw [hc]; rfl) (requested_advance hf) h.isr
  exact hplaced.advance Moves.refl hf

lemma Inv.access (h : Inv d s) (hs : s.accessStep = some t) : Inv d t := by
  have hplaced := h.placed
  unfold accessStep at hs
  cases hc : s.cpu with
  | calling c rest =>
    cases hr : rest with
    | done r =>
      simp only [Placed, hc, hr] at hplaced
      simp only [hc, hr, Option.some.injEq] at hs
      obtain ⟨hsettled, hzero⟩ := hplaced.2.done Moves.refl
      rw [← hs]
      refine h.go ?_ rfl rfl rfl (fun l => by rw [hc]; rfl) (by rw [hc]; rfl) (fun l => id) fun r' hr => ?_
      · simp only [Placed, maskedBy_append]
        exact hsettled
      · rcases List.mem_append.mp hr with hr | hr
        · exact h.isr r' hr
        · cases List.mem_singleton.mp hr
          exact hzero rfl
    | inb port next =>
      simp only [hc, hr] at hs
      obtain ⟨⟨g, q⟩, hf, rfl⟩ := Option.map_eq_some_iff.mp hs
      exact h.callAccess hc (hr ▸ hf)
    | outb port value next =>
      simp only [hc, hr] at hs
      obtain ⟨⟨g, q⟩, hf, rfl⟩ := Option.map_eq_some_iff.mp hs
      exact h.callAccess hc (hr ▸ hf)
  | ending rest =>
    cases hr : rest with
    | done r =>
      simp only [Placed, hc, hr] at hplaced
      simp only [hc, hr, Option.some.injEq] at hs
      rw [← hs]
      exact h.go (hplaced.done Moves.refl) rfl rfl rfl (fun l => by rw [hc]; rfl) (by rw [hc]; rfl)
        (fun l => id) h.isr
    | inb port next =>
      simp only [hc, hr] at hs
      obtain ⟨⟨g, q⟩, hf, rfl⟩ := Option.map_eq_some_iff.mp hs
      exact h.endAccess hc (hr ▸ hf)
    | outb port value next =>
      simp only [hc, hr] at hs
      obtain ⟨⟨g, q⟩, hf, rfl⟩ := Option.map_eq_some_iff.mp hs
      exact h.endAccess hc (hr ▸ hf)
  | free => simp [hc] at hs
  | asked => simp [hc] at hs
  | answering i => simp [hc] at hs
  | entered v => simp [hc] at hs

lemma Inv.select (h : Inv d s) (hc : s.cpu = .asked) :
    Inv d { s with cpu := .answering s.pics.select.1, pics := s.pics.select.2 } := by
  have hplaced := h.placed
  simp only [Placed, hc] at hplaced
  have hselected := select_selected hplaced.cascaded hplaced.idle
  refine ⟨hplaced.select, h.vectors, fun l hl h2 h7 h15 => ?_, ?_, h.isr⟩
  · obtain ⟨hkeeps, htaken⟩ := hselected.requested hl h2
    have honce := h.once l hl h2 h7 h15
    have hle := toNat_le_of_imp hkeeps
    simp only [due, hc, Cpu.answers] at honce ⊢
    split
    · next he =>
      obtain ⟨hbefore, hafter⟩ := htaken he h7
      rw [hbefore, Bool.toNat_true] at honce
      rw [hafter, Bool.toNat_false]
      omega
    · omega
  · have hticks := h.ticks
    rw [hc] at hticks
    exact hticks

lemma count_irqVector (vs : List (BitVec 8)) {k l : ℕ} (hk : k < 16) (hl : l < 16) :
    (vs ++ [irqVector l]).count (irqVector k) = vs.count (irqVector k) + if l = k then 1 else 0 := by
  rw [List.count_append, List.count_singleton]
  by_cases he : l = k
  · simp [he]
  · have hne : irqVector l ≠ irqVector k := fun h => he (irqVector_inj hl hk h)
    simp [he, hne]

lemma Inv.supply (h : Inv d s) {i : ℕ} (hc : s.cpu = .answering i) :
    Inv d
      { s with
        cpu := .entered (s.pics.supply i).1
        pics := (s.pics.supply i).2
        interruptFlag := false
        delivered := s.delivered ++ [(s.pics.supply i).1] } := by
  have hplaced := h.placed
  simp only [Placed, hc] at hplaced
  have hsupplied := supply_supplied hplaced.cascaded hplaced.slave hplaced.line_lt
  obtain ⟨l, hv, hserving, hown, hsecond⟩ := hplaced.supply
  have hl := hserving.line_lt
  change _ = irqVector l at hv
  rw [hv]
  refine ⟨⟨l, rfl, hserving⟩, fun v hmem => ?_, fun k hk h2 h7 h15 => ?_, ?_, h.isr⟩
  · rcases List.mem_append.mp hmem with hmem | hmem
    · exact h.vectors v hmem
    · exact ⟨l, hl, hserving.line_ne, List.mem_singleton.mp hmem⟩
  · have honce := h.once k hk h2 h7 h15
    have hle := toNat_le_of_imp (@Supplied.requested _ _ k _ hsupplied)
    simp only [due, hc, Cpu.answers] at honce ⊢
    rw [count_irqVector _ hk hl]
    split
    · next he =>
      subst he
      by_cases hl8 : l < 8
      · rw [hown hl8, if_pos rfl] at honce
        rw [hown hl8] at hle ⊢
        omega
      · obtain ⟨hbefore, hafter⟩ := hsecond (by omega) h15
        rw [hbefore, Bool.toNat_true] at honce
        rw [hafter, Bool.toNat_false]
        omega
    · omega
  · have hticks := h.ticks
    simp only [hc, Cpu.enters] at hticks
    simp only [Cpu.enters, count_irqVector _ (show 0 < 16 by decide) hl]
    have heq : (if irqVector l = irqVector 0 then 1 else 0) = if l = 0 then 1 else 0 := by
      by_cases h0 : l = 0
      · rw [h0, if_pos rfl, if_pos rfl]
      · rw [if_neg h0, if_neg fun h => h0 (irqVector_inj hl (by decide) h)]
    rw [heq, BitVec.ofNat_add, ← BitVec.add_assoc, ← hticks]
    simp

lemma irq_irqVector {l : ℕ} (hl : l < 16) :
    ((irqVector l).setWidth 32 - 32#32).setWidth 8 = BitVec.ofNat 8 l :=
  (by decide : ∀ l < 16, ((irqVector l).setWidth 32 - 32#32).setWidth 8 = BitVec.ofNat 8 l) l hl

lemma handleIrq_ticks {n : ℕ} {e e' : Devices} {l : ℕ} {scs : List (BitVec 8)} (hl : l < 16)
    (h : handleIrq w n e (BitVec.ofNat 8 l) scs = some e') :
    e'.pit.tickCount = e.pit.tickCount + if l = 0 then 1#32 else 0#32 := by
  have hnat : (BitVec.ofNat 8 l).toNat = l := by
    rw [BitVec.toNat_ofNat]
    omega
  unfold handleIrq at h
  rw [hnat] at h
  split at h
  · cases h
    rfl
  · cases h
    exact (BitVec.add_zero _).symm
  · next h0 h1 =>
    obtain ⟨r, _, rfl⟩ := Option.map_eq_some_iff.mp h
    rw [if_neg fun he => h0 he]
    exact (BitVec.add_zero _).symm

lemma Inv.handle (h : Inv d s) {n : ℕ} {scs : List (BitVec 8)} {v : BitVec 8}
    {r : Devices × PortProgram Unit} (hc : s.cpu = .entered v)
    (hr : irqHandler w n s.devices (v.setWidth 32) scs = some r) :
    Inv d { s with devices := r.1, cpu := .ending r.2 } := by
  have hplaced := h.placed
  simp only [Placed, hc] at hplaced
  obtain ⟨l, rfl, hserving⟩ := hplaced
  have hl := hserving.line_lt
  simp only [irqHandler, irq_irqVector hl] at hr
  obtain ⟨e, he, rfl⟩ := Option.map_eq_some_iff.mp hr
  refine ⟨hserving.sendEoi, h.vectors, fun k hk h2 h7 h15 => ?_, ?_, h.isr⟩
  · have honce := h.once k hk h2 h7 h15
    simp only [due, hc] at honce ⊢
    exact honce
  · have hticks := h.ticks
    simp only [hc, Cpu.enters] at hticks
    simp only [Cpu.enters, handleIrq_ticks hl he]
    rw [← hticks]
    by_cases h0 : l = 0
    · simp [h0]
    · rw [if_neg h0, if_neg fun h => h0 (irqVector_inj hl (by decide) h)]
      simp

lemma Inv.step (h : Inv d s) {e : IrqEvent} (hs : Step w s e t) : Inv d t := by
  have hplaced := h.placed
  unfold Step next at hs
  cases e with
  | drive line up =>
    cases hs
    exact h.drive line up
  | pulse =>
    simp only [pulseStep] at hs
    split at hs
    · next hc =>
      cases hs
      exact h.select hc
    · next i hc =>
      cases hs
      exact h.supply hc
    · cases hs
  | handle n scs =>
    simp only at hs
    split at hs
    · next v hc =>
      split at hs
      · obtain ⟨r, hr, rfl⟩ := Option.map_eq_some_iff.mp hs
        exact h.handle hc hr
      · cases hs
    · cases hs
  | access => exact h.access hs
  | sti =>
    simp only at hs
    split at hs
    · next hc =>
      cases hs
      refine h.go ?_ rfl rfl rfl (fun _ => rfl) rfl (fun _ => id) h.isr
      simp only [Placed, hc] at hplaced ⊢
      exact hplaced
    · cases hs
  | cli =>
    simp only at hs
    split at hs
    · next hc =>
      cases hs
      refine h.go ?_ rfl rfl rfl (fun _ => rfl) rfl (fun _ => id) h.isr
      simp only [Placed, hc] at hplaced ⊢
      exact hplaced
    · cases hs
  | call c =>
    simp only at hs
    split at hs
    · next hc =>
      split at hs
      · cases hs
      · next hoff =>
        cases hs
        refine h.go ?_ rfl rfl rfl (fun l => by rw [hc]; rfl) (by rw [hc]; rfl) (fun _ => id) h.isr
        simp only [Placed, hc] at hplaced
        exact ⟨by simpa using hoff, c.ensures (.inr hplaced)⟩
    · cases hs
  | interrupt =>
    simp only at hs
    split at hs
    · next hc =>
      split at hs
      · cases hs
        refine h.go ?_ rfl rfl rfl (fun l => by rw [hc]; rfl) (by rw [hc]; rfl) (fun _ => id) h.isr
        simp only [Placed, hc] at hplaced
        exact hplaced
      · cases hs
    · cases hs

lemma inv_boot (p : Pics) (d : Devices) : Inv d (boot p d) := by
  refine ⟨⟨rfl, ?_⟩, by simp [boot], fun l _ _ _ _ => ?_, ?_, by simp [boot]⟩
  · exact PicCall.ensures (m := fun l => l ≠ 1) .kearly (.inl rfl)
  · have hle := Bool.toNat_le (p.requested l)
    simp only [due, boot, Cpu.answers, List.count_nil]
    omega
  · rfl

lemma run_inv {p : Pics} {es : List IrqEvent} (h : Run (Step w) (boot p d) es s) : Inv d s :=
  h.invariant (fun _ _ _ hs hstep => hs.step hstep) (inv_boot p d)

/-- From any state in which the controllers and devices are found, in every order of device events,
processor steps and calls: between interrupts nothing is in service and the masks are those that the
calls ask for; every vector that the processor gets is one of the sixteen, not the cascade's, and its
gate leads to its stub; no line is delivered more often than it was raised, but for a request found at
the start and the two lines that also stand for none; the ticks count the interrupts of the timer; and
`pic_get_isr` gives zero. -/
theorem irq_protocol (w : UartWorld) (p : Pics) (d : Devices) {es : List IrqEvent} {s : IrqSystem}
    (h : Run (Step w) (boot p d) es s) :
    (s.cpu = .free → Idle s.pics ∧ (∀ l < 16, s.pics.masked l = maskedBy s.returned l) ∧
        s.devices.pit.getTicks = d.pit.getTicks + BitVec.ofNat 32 (s.delivered.count 32#8)) ∧
      (∀ v ∈ s.delivered, 32 ≤ v.toNat ∧ v.toNat < 48 ∧ v ≠ 34#8 ∧ ∀ image idt,
        (idtInit image idt v.toNat).isr = image.irqStubTable (v.toNat - 32)) ∧
      (∀ l < 16, l ≠ 7 → l ≠ 15 → s.delivered.count (irqVector l) ≤ s.raised.count l + 1) ∧
      ∀ r, (PicCall.getIsr, r) ∈ s.returned → r = 0#16 := by
  have hinv := run_inv h
  refine ⟨fun hc => ?_, fun v hv => ?_, fun l hl h7 h15 => ?_, hinv.isr⟩
  · have hplaced := hinv.placed
    have hticks := hinv.ticks
    simp only [Placed, hc] at hplaced
    rw [hc] at hticks
    exact ⟨hplaced.idle, hplaced.masked, (BitVec.add_zero _).symm.trans hticks⟩
  · obtain ⟨l, hl, h2, rfl⟩ := hinv.vectors v hv
    rw [toNat_irqVector hl]
    refine ⟨by omega, by omega, fun he => h2 (irqVector_inj hl (by decide) he), fun image idt => ?_⟩
    exact isr_idtInit image idt (by omega) (by omega)
  · by_cases h2 : l = 2
    · have hnone : irqVector l ∉ s.delivered := by
        intro hmem
        obtain ⟨k, hk, hk2, he⟩ := hinv.vectors _ hmem
        exact hk2 (h2 ▸ (irqVector_inj hl hk he).symm)
      rw [List.count_eq_zero_of_not_mem hnone]
      exact Nat.zero_le _
    · have honce := hinv.once l hl h2 h7 h15
      unfold due at honce
      omega

def strayPics : Pics :=
  ⟨⟨0, 0, 0, 0xFF, 0x81, 0x10, .wiring true, true⟩, ⟨0x70, 0, 2, 0, 0x01, 0, .mode, false⟩⟩

def someDevices : Devices := ⟨⟨0xFFFFFFFF⟩, .boot, ⟨⟨7, 90, 0x1E, fun _ => 0, 0, 0, []⟩, Serial.busyUart⟩⟩

def keyEvents : List IrqEvent :=
  List.replicate 26 .access ++
    [.sti, .drive 1 true, .interrupt, .pulse, .pulse, .handle 0 [0x1E#8], .drive 1 true, .access,
      .access]

theorem irq_protocol_key :
    ∃ s, keyEvents.foldlM (next Serial.slowWorld) (boot strayPics someDevices) = some s ∧
      (s.cpu = .free → Idle s.pics ∧ (∀ l < 16, s.pics.masked l = maskedBy s.returned l) ∧
          s.devices.pit.getTicks =
            someDevices.pit.getTicks + BitVec.ofNat 32 (s.delivered.count 32#8)) ∧
        (∀ v ∈ s.delivered, 32 ≤ v.toNat ∧ v.toNat < 48 ∧ v ≠ 34#8 ∧ ∀ image idt,
          (idtInit image idt v.toNat).isr = image.irqStubTable (v.toNat - 32)) ∧
        (∀ l < 16, l ≠ 7 → l ≠ 15 → s.delivered.count (irqVector l) ≤ s.raised.count l + 1) ∧
        ∀ r, (PicCall.getIsr, r) ∈ s.returned → r = 0#16 := by
  have hruns : (keyEvents.foldlM (next Serial.slowWorld) (boot strayPics someDevices)).isSome := by
    decide
  obtain ⟨s, hs⟩ := Option.isSome_iff_exists.mp hruns
  exact ⟨s, hs, irq_protocol _ _ _ (Run.of_foldlM hs)⟩

structure Shut (l : ℕ) (s : IrqSystem) : Prop where
  masked : maskedBy s.returned l = true
  calling : ∀ c rest, s.cpu = .calling c rest → c.masks (maskedBy s.returned) l = true
  never : irqVector l ∉ s.delivered
  enters : s.cpu.enters (irqVector l) = 0

lemma masks_shut {m : ℕ → Bool} {c : PicCall} {l : ℕ} (hm : m l = true) (h1 : l ≠ 1)
    (hc : IrqEvent.Keeps l (.call c)) : c.masks m l = true := by
  cases c with
  | kearly => simpa [PicCall.masks] using h1
  | setMask line => simp [PicCall.masks, hm]
  | clearMask line => simp [PicCall.masks, hm, Ne.symm hc]
  | disable => rfl
  | getIrr => exact hm
  | getIsr => exact hm

lemma Shut.go {l : ℕ} (h : Shut l s) (hreturned : t.returned = s.returned)
    (hdelivered : t.delivered = s.delivered)
    (hcalling : ∀ c rest, t.cpu = .calling c rest → c.masks (maskedBy s.returned) l = true)
    (henters : t.cpu.enters (irqVector l) = 0) : Shut l t :=
  ⟨hreturned ▸ h.masked, fun c rest hc => hreturned ▸ hcalling c rest hc, hdelivered ▸ h.never,
    henters⟩

lemma Shut.access {l : ℕ} (h : Shut l s) (hs : s.accessStep = some t) : Shut l t := by
  unfold accessStep at hs
  split at hs
  · next c r hc =>
    cases hs
    refine ⟨?_, fun c rest hc => (by cases hc), h.never, rfl⟩
    rw [maskedBy_append]
    exact h.calling c _ hc
  · next c rest hne hc =>
    obtain ⟨r, _, rfl⟩ := Option.map_eq_some_iff.mp hs
    exact h.go rfl rfl (fun c' rest' he => by cases he; exact h.calling c _ hc) rfl
  · cases hs
    exact h.go rfl rfl (fun c rest hc => by cases hc) rfl
  · obtain ⟨r, _, rfl⟩ := Option.map_eq_some_iff.mp hs
    exact h.go rfl rfl (fun c rest hc => by cases hc) rfl
  · cases hs

lemma Shut.pulse {l : ℕ} (h : Shut l s) (hinv : Inv d s) (hl : l < 16) (h7 : l ≠ 7) (h15 : l ≠ 15)
    (hs : s.pulseStep = some t) : Shut l t := by
  have hplaced := hinv.placed
  unfold pulseStep at hs
  split at hs
  · cases hs
    exact h.go rfl rfl (fun c rest hc => by cases hc) rfl
  · next i hc =>
    cases hs
    simp only [Placed, hc] at hplaced
    obtain ⟨k, hv, hserving, -⟩ := hplaced.supply
    have hother : (s.pics.supply i).1 ≠ irqVector l := by
      intro he
      have hk := irqVector_inj hl hserving.line_lt (he.symm.trans hv)
      subst hk
      have hopen := hserving.unmasked h7 h15
      rw [h.masked] at hopen
      cases hopen
    refine ⟨h.masked, fun c rest hc => (by cases hc), fun hmem => ?_, if_neg hother⟩
    rcases List.mem_append.mp hmem with hmem | hmem
    · exact h.never hmem
    · exact hother (List.mem_singleton.mp hmem).symm
  · cases hs

lemma Shut.step {l : ℕ} (h : Shut l s) (hinv : Inv d s) (hl : l < 16) (h1 : l ≠ 1) (h7 : l ≠ 7)
    (h15 : l ≠ 15) {e : IrqEvent} (hs : Step w s e t) (he : e.Keeps l) : Shut l t := by
  unfold Step next at hs
  cases e with
  | drive line up =>
    cases hs
    exact ⟨h.masked, h.calling, h.never, h.enters⟩
  | pulse => exact h.pulse hinv hl h7 h15 hs
  | access => exact h.access hs
  | handle n scs =>
    simp only at hs
    split at hs
    · split at hs
      · obtain ⟨r, _, rfl⟩ := Option.map_eq_some_iff.mp hs
        exact h.go rfl rfl (fun c rest hc => by cases hc) rfl
      · cases hs
    · cases hs
  | call c =>
    simp only at hs
    split at hs
    · split at hs
      · cases hs
      · cases hs
        refine h.go rfl rfl (fun c' rest hc => ?_) rfl
        cases hc
        exact masks_shut h.masked h1 he
    · cases hs
  | interrupt =>
    simp only at hs
    split at hs
    · split at hs
      · cases hs
        exact h.go rfl rfl (fun c rest hc => by cases hc) rfl
      · cases hs
    · cases hs
  | sti =>
    simp only at hs
    split at hs
    · cases hs
      exact ⟨h.masked, h.calling, h.never, h.enters⟩
    · cases hs
  | cli =>
    simp only at hs
    split at hs
    · cases hs
      exact ⟨h.masked, h.calling, h.never, h.enters⟩
    · cases hs

/-- In every run in which no call unmasks a line, which is neither the keyboard's nor 7 or 15, that line's
handler never runs, whatever the device does: as the kernel never unmasks line 0, its timer does not
tick. -/
theorem masked_never (w : UartWorld) (p : Pics) (d : Devices) {es : List IrqEvent} {s : IrqSystem}
    (h : Run (Step w) (boot p d) es s) {l : ℕ} (hl : l < 16) (h1 : l ≠ 1) (h7 : l ≠ 7)
    (h15 : l ≠ 15) (hes : ∀ e ∈ es, e.Keeps l) :
    irqVector l ∉ s.delivered ∧ (l = 0 → s.devices.pit.getTicks = d.pit.getTicks) := by
  have hboot : Inv d (boot p d) ∧ Shut l (boot p d) := by
    refine ⟨inv_boot p d, by simpa [boot, maskedBy] using h1, fun c rest hc => ?_, by simp [boot], rfl⟩
    cases hc
    simpa [PicCall.masks] using h1
  have hend : Inv d s ∧ Shut l s :=
    h.invariant_along (I := fun s => Inv d s ∧ Shut l s) (Q := fun _ e _ => e.Keeps l)
      (fun s e t hs hstep he => ⟨hs.1.step hstep, hs.2.step hs.1 hl h1 h7 h15 hstep he⟩)
      (along_of_forall _ hes) hboot
  refine ⟨hend.2.never, ?_⟩
  rintro rfl
  have hticks := hend.1.ticks
  rw [List.count_eq_zero_of_not_mem hend.2.never, hend.2.enters] at hticks
  rwa [BitVec.add_zero, BitVec.add_zero] at hticks

theorem masked_never_timer :
    ∃ s, (.drive 0 true :: keyEvents).foldlM (next Serial.slowWorld) (boot strayPics someDevices) =
        some s ∧ irqVector 0 ∉ s.delivered ∧
      (0 = 0 → s.devices.pit.getTicks = someDevices.pit.getTicks) := by
  have hruns : ((.drive 0 true :: keyEvents).foldlM (next Serial.slowWorld)
      (boot strayPics someDevices)).isSome := by
    decide
  obtain ⟨s, hs⟩ := Option.isSome_iff_exists.mp hruns
  refine ⟨s, hs, masked_never Serial.slowWorld strayPics someDevices (Run.of_foldlM hs) (by decide)
    (by decide) (by decide) (by decide) fun e he => ?_⟩
  have hkeeps : ∀ e ∈ .drive 0 true :: keyEvents, e.Keeps 0 := by
    simp [keyEvents, IrqEvent.Keeps]
  exact hkeeps e he

end IrqSystem

end Veni.Interrupts
