import Mathlib.Data.BitVec
import Mathlib.Tactic.Common
import Mathlib.Tactic.IntervalCases
import Veni.Lib.PortProgram

/-! A pair of 8259 interrupt controllers, the second one on line 2 of the first: the registers, the
words that set them up, and the two pulses with which a processor takes an interrupt. Priorities are
fixed; rotation, polling and the special modes are left out. -/

namespace Veni.Lib

inductive Stage
  | base (single needsMode : Bool)
  | wiring (needsMode : Bool)
  | mode
  | ready
  deriving DecidableEq

structure Chip where
  vectorBase : BitVec 8
  cascade : BitVec 8
  mode : BitVec 8
  mask : BitVec 8
  request : BitVec 8
  inService : BitVec 8
  stage : Stage
  readsInService : Bool

def Chip.setup (c : Chip) : BitVec 8 × BitVec 8 × BitVec 8 × Stage :=
  (c.vectorBase, c.cascade, c.mode, c.stage)

def setBit (v : BitVec 8) (i : ℕ) (b : Bool) : BitVec 8 :=
  if b then v ||| (1#8 <<< i) else v &&& ~~~(1#8 <<< i)

def first (p : ℕ → Bool) : Option ℕ := (List.range 8).find? p

lemma getLsbD_setBit (v : BitVec 8) {i j : ℕ} (hi : i < 8) (b : Bool) :
    (setBit v i b).getLsbD j = if j = i then b else v.getLsbD j := by
  have hbit : ∀ j, (1#8 <<< i).getLsbD j = decide (j = i) := by
    intro j
    rw [BitVec.getLsbD_shiftLeft, BitVec.getLsbD_one]
    by_cases h : j = i
    · simp [h, hi]
    · have hne : ¬ (i ≤ j ∧ j - i = 0) := by omega
      simp [h]
      omega
  cases b with
  | true =>
    simp only [setBit, if_true, BitVec.getLsbD_or, hbit]
    split <;> simp [*]
  | false =>
    simp only [setBit, Bool.false_eq_true, if_false, BitVec.getLsbD_and, BitVec.getLsbD_not, hbit]
    split
    · simp [*]
    · by_cases hj : j < 8
      · simp [*]
      · simp [*, BitVec.getLsbD_of_ge v j (by omega)]

lemma first_eq_some {p : ℕ → Bool} {i : ℕ} :
    first p = some i ↔ i < 8 ∧ p i = true ∧ ∀ j < i, p j = false := by
  rw [first, List.find?_range_eq_some]
  simp only [List.mem_range, Bool.not_eq_eq_eq_not, Bool.not_true]
  exact ⟨fun ⟨hp, hi, hj⟩ => ⟨hi, hp, hj⟩, fun ⟨hi, hp, hj⟩ => ⟨hp, hi, hj⟩⟩

lemma first_eq_none {p : ℕ → Bool} : first p = none ↔ ∀ i < 8, p i = false := by
  rw [first, List.find?_range_eq_none]
  simp only [Bool.not_eq_eq_eq_not, Bool.not_true]

namespace Chip

def wants (c : Chip) (i : ℕ) : Bool := c.request.getLsbD i && !c.mask.getLsbD i

/-- The line that the chip asks to be served, if any: one in service keeps out itself and the lines
behind it. -/
def pending (c : Chip) : Option ℕ :=
  (first fun i => c.inService.getLsbD i || c.wants i).filter fun i => !c.inService.getLsbD i

def select (c : Chip) : ℕ × Chip :=
  match c.pending with
  | some i =>
    (i, { c with
      request := setBit c.request i false
      -- with the automatic end of interrupt nothing stays in service
      inService := if c.mode.getLsbD 1 then c.inService else setBit c.inService i true })
  | none => (7, c)

def endHighest (c : Chip) : Chip :=
  match first c.inService.getLsbD with
  | some i => { c with inService := setBit c.inService i false }
  | none => c

def writeCommand (c : Chip) (v : BitVec 8) : Chip :=
  if v.getLsbD 4 then
    { c with
      mode := if v.getLsbD 0 then c.mode else 0#8
      mask := 0#8
      request := 0#8
      inService := 0#8
      stage := .base (v.getLsbD 1) (v.getLsbD 0)
      readsInService := false }
  else if v.getLsbD 3 then
    if v.getLsbD 1 then { c with readsInService := v.getLsbD 0 } else c
  else if v >>> 5 = 1#8 then c.endHighest
  else if v >>> 5 = 3#8 then { c with inService := setBit c.inService (v &&& 7#8).toNat false }
  else c

def writeData (c : Chip) (v : BitVec 8) : Chip :=
  match c.stage with
  | .base single needsMode =>
    { c with
      vectorBase := v &&& 0xF8#8
      stage := if single then (if needsMode then .mode else .ready) else .wiring needsMode }
  | .wiring needsMode => { c with cascade := v, stage := if needsMode then .mode else .ready }
  | .mode => { c with mode := v, stage := .ready }
  | .ready => { c with mask := v }

def readCommand (c : Chip) : BitVec 8 := if c.readsInService then c.inService else c.request

variable {c : Chip} {i : ℕ}

def Alone (v : BitVec 8) : Prop := v = 0#8 ∨ ∃ i < 8, v = setBit 0#8 i true

lemma pending_idle (h : c.inService = 0#8) : c.pending = first c.wants := by
  have hbit : ∀ i, c.inService.getLsbD i = false := by
    intro i
    rw [h]
    exact BitVec.getLsbD_zero
  simp only [pending, hbit, Bool.false_or, Bool.not_false]
  cases first fun i => c.wants i <;> rfl

lemma select_idle (hm : c.mode.getLsbD 1 = false) (h : c.inService = 0#8) (hi : c.pending = some i) :
    c.select = (i, { c with request := setBit c.request i false, inService := setBit 0#8 i true }) := by
  rw [select, hi]
  simp only [hm, Bool.false_eq_true, if_false, h]

lemma request_endHighest (c : Chip) : c.endHighest.request = c.request := by
  unfold endHighest
  split <;> rfl

lemma request_writeCommand (c : Chip) (v : BitVec 8) :
    (c.writeCommand v).request = 0#8 ∨ (c.writeCommand v).request = c.request := by
  unfold writeCommand
  split
  · exact .inl rfl
  · right
    split
    · split <;> rfl
    · split
      · exact request_endHighest c
      · split <;> rfl

lemma request_writeData (c : Chip) (v : BitVec 8) : (c.writeData v).request = c.request := by
  unfold writeData
  split <;> rfl

lemma select_none (hi : c.pending = none) : c.select = (7, c) := by
  rw [select, hi]

lemma endHighest_alone (h : Alone c.inService) :
    c.endHighest = { c with inService := 0#8 } := by
  rcases h with h | ⟨i, hi, h⟩
  · have hnone : first c.inService.getLsbD = none := by
      rw [first_eq_none, h]
      exact fun _ _ => BitVec.getLsbD_zero
    rw [endHighest, hnone]
    exact h ▸ rfl
  · have hsome : first c.inService.getLsbD = some i := by
      rw [first_eq_some, h]
      refine ⟨hi, ?_, fun j hj => ?_⟩
      · rw [getLsbD_setBit _ hi, if_pos rfl]
      · rw [getLsbD_setBit _ hi, if_neg (by omega)]
        exact BitVec.getLsbD_zero
    have hclear : setBit c.inService i false = 0#8 := by
      rw [h]
      apply BitVec.eq_of_getLsbD_eq
      intro j _
      rw [getLsbD_setBit _ hi, getLsbD_setBit _ hi]
      split
      · exact BitVec.getLsbD_zero.symm
      · rfl
    rw [endHighest, hsome]
    simp only [hclear]

end Chip

structure Pics where
  master : Chip
  slave : Chip

namespace Pics

def lead (p : Pics) : Chip :=
  { p.master with request := setBit p.master.request 2 p.slave.pending.isSome }

def asks (p : Pics) : Bool := p.lead.pending.isSome

def select (p : Pics) : ℕ × Pics := (p.lead.select.1, { p with master := p.lead.select.2 })

/-- The second pulse, after the first chip chose line `i`: the vector. Where no chip answers the bus
reads as all ones. -/
def supply (p : Pics) (i : ℕ) : BitVec 8 × Pics :=
  if p.master.cascade.getLsbD i then
    if (p.slave.cascade &&& 7#8).toNat = i then
      (p.slave.vectorBase + BitVec.ofNat 8 p.slave.select.1, { p with slave := p.slave.select.2 })
    else (0xFF#8, p)
  else (p.master.vectorBase + BitVec.ofNat 8 i, p)

def drive (p : Pics) (line : ℕ) (b : Bool) : Pics :=
  if line < 8 then
    if line = 2 then p else { p with master.request := setBit p.master.request line b }
  else { p with slave.request := setBit p.slave.request (line - 8) b }

def bus : Bus Pics where
  read p port :=
    (if port = 0x20#16 then p.lead.readCommand
      else if port = 0x21#16 then p.master.mask
      else if port = 0xA0#16 then p.slave.readCommand
      else if port = 0xA1#16 then p.slave.mask
      else 0xFF#8, p)
  write p port v :=
    if port = 0x20#16 then { p with master := p.master.writeCommand v }
    else if port = 0x21#16 then { p with master := p.master.writeData v }
    else if port = 0xA0#16 then { p with slave := p.slave.writeCommand v }
    else if port = 0xA1#16 then { p with slave := p.slave.writeData v }
    else p

variable {p q : Pics} {i l : ℕ}

def requested (p : Pics) (l : ℕ) : Bool :=
  if l < 8 then l != 2 && p.master.request.getLsbD l else p.slave.request.getLsbD (l - 8)

def masked (p : Pics) (l : ℕ) : Bool :=
  if l < 8 then p.master.mask.getLsbD l else p.slave.mask.getLsbD (l - 8)

def Idle (p : Pics) : Prop := p.master.inService = 0#8 ∧ p.slave.inService = 0#8

def Moves (p q : Pics) : Prop :=
  ∃ r r', q = ⟨{ p.master with request := r }, { p.slave with request := r' }⟩

lemma Moves.refl (p : Pics) : Moves p p := ⟨p.master.request, p.slave.request, rfl⟩

lemma Moves.trans {r : Pics} (h : Moves p q) (h' : Moves q r) : Moves p r := by
  obtain ⟨_, _, rfl⟩ := h
  obtain ⟨x, y, rfl⟩ := h'
  exact ⟨x, y, rfl⟩

lemma moves_drive (p : Pics) (line : ℕ) (b : Bool) : Moves p (p.drive line b) := by
  unfold drive
  split
  · split
    · exact .refl p
    · exact ⟨_, p.slave.request, rfl⟩
  · exact ⟨p.master.request, _, rfl⟩

lemma requested_drive {line : ℕ} (hline : line < 16) (b : Bool) (hl : l < 16) (hne : l ≠ 2) :
    (p.drive line b).requested l = if l = line then b else p.requested l := by
  unfold drive requested
  by_cases h8 : line < 8
  · by_cases h2 : line = 2
    · have hother : l ≠ line := by omega
      simp [h2, hne]
    · by_cases hl8 : l < 8
      · simp only [h8, if_true, h2, if_false, hl8, getLsbD_setBit _ h8]
        split <;> simp [hne]
      · have hother : l ≠ line := by omega
        simp [h8, h2, hl8, hother]
  · by_cases hl8 : l < 8
    · have hother : l ≠ line := by omega
      simp [h8, hl8, hother]
    · have hiff : l - 8 = line - 8 ↔ l = line := by omega
      simp [h8, hl8, getLsbD_setBit _ (show line - 8 < 8 by omega), hiff]

lemma requested_write (port : BitVec 16) (v : BitVec 8) (h : (bus.write p port v).requested l = true) :
    p.requested l = true := by
  have hcommand : ∀ (c : Chip) (i : ℕ), (c.writeCommand v).request.getLsbD i = true →
      c.request.getLsbD i = true := by
    intro c i hi
    rcases c.request_writeCommand v with hr | hr
    · rw [hr] at hi
      exact absurd hi (by rw [BitVec.getLsbD_zero]; decide)
    · rwa [hr] at hi
  unfold bus requested at h
  unfold requested
  split at h
  · next hl =>
    rw [if_pos hl]
    obtain ⟨hne, hbit⟩ := Bool.and_eq_true_iff.mp h
    rw [hne, Bool.true_and]
    revert hbit
    dsimp only
    split
    · exact hcommand p.master l
    · split
      · rw [Chip.request_writeData]
        exact id
      · split
        · exact id
        · split <;> exact id
  · next hl =>
    rw [if_neg hl]
    revert h
    dsimp only
    split
    · exact id
    · split
      · exact id
      · split
        · exact hcommand p.slave (l - 8)
        · split
          · rw [Chip.request_writeData]
            exact id
          · exact id

lemma writeCommand_request (c : Chip) (r v : BitVec 8) :
    ∃ r', ({ c with request := r } : Chip).writeCommand v = { c.writeCommand v with request := r' } := by
  unfold Chip.writeCommand
  split
  · exact ⟨_, rfl⟩
  · split
    · split <;> exact ⟨r, rfl⟩
    · split
      · refine ⟨r, ?_⟩
        simp only [Chip.endHighest]
        cases first c.inService.getLsbD <;> rfl
      · split <;> exact ⟨r, rfl⟩

lemma writeData_request (c : Chip) (r v : BitVec 8) :
    ({ c with request := r } : Chip).writeData v = { c.writeData v with request := r } := by
  cases hs : c.stage with
  | _ => simp only [Chip.writeData, hs]

def DataPort (port : BitVec 16) : Prop := port = 0x21#16 ∨ port = 0xA1#16

lemma Moves.read (hm : Moves p q) {port : BitVec 16} (hport : DataPort port) :
    (bus.read q port).1 = (bus.read p port).1 ∧ Moves (bus.read p port).2 (bus.read q port).2 := by
  refine ⟨?_, hm⟩
  obtain ⟨_, _, rfl⟩ := hm
  rcases hport with rfl | rfl <;> rfl

lemma Moves.write (hm : Moves p q) (port : BitVec 16) (v : BitVec 8) :
    Moves (bus.write p port v) (bus.write q port v) := by
  obtain ⟨r, r', rfl⟩ := hm
  unfold bus
  dsimp only
  split
  · obtain ⟨x, hx⟩ := writeCommand_request p.master r v
    exact ⟨x, r', by rw [hx]⟩
  · split
    · exact ⟨r, r', by rw [writeData_request]⟩
    · split
      · obtain ⟨x, hx⟩ := writeCommand_request p.slave r' v
        exact ⟨r, x, by rw [hx]⟩
      · split
        · exact ⟨r, r', by rw [writeData_request]⟩
        · exact ⟨r, r', rfl⟩

lemma ensures_run {α : Type} {f : PortProgram α} (hf : f.Reads DataPort) (p : Pics) :
    PortProgram.Ensures bus Moves f
      (fun a q => a = (f.run bus p).1 ∧ Moves (f.run bus p).2 q) p := by
  apply PortProgram.Ensures.of_run _ _ _ hf (Moves.refl p)
  · exact fun s t port hport hm => hm.read hport
  · exact fun s t port v hm => hm.write port v
  · exact fun s t u h h' => h.trans h'

structure Cascaded (p : Pics) (base base' : BitVec 8) : Prop where
  master : p.master.setup = (base, 4#8, 1#8, .ready)
  slave : p.slave.setup = (base', 2#8, 1#8, .ready)

variable {base base' : BitVec 8}

namespace Cascaded

lemma masterBase (h : Cascaded p base base') : p.master.vectorBase = base := congrArg (·.1) h.master

lemma slaveBase (h : Cascaded p base base') : p.slave.vectorBase = base' := congrArg (·.1) h.slave

lemma wiring (h : Cascaded p base base') : p.master.cascade = 4#8 := congrArg (·.2.1) h.master

lemma identity (h : Cascaded p base base') : p.slave.cascade = 2#8 := congrArg (·.2.1) h.slave

lemma masterMode (h : Cascaded p base base') : p.master.mode = 1#8 := congrArg (·.2.2.1) h.master

lemma slaveMode (h : Cascaded p base base') : p.slave.mode = 1#8 := congrArg (·.2.2.1) h.slave

lemma masterStage (h : Cascaded p base base') : p.master.stage = .ready :=
  congrArg (·.2.2.2) h.master

lemma slaveStage (h : Cascaded p base base') : p.slave.stage = .ready := congrArg (·.2.2.2) h.slave

lemma moved (h : Cascaded p base base') (hm : Moves p q) : Cascaded q base base' := by
  obtain ⟨_, _, rfl⟩ := hm
  exact ⟨h.master, h.slave⟩

end Cascaded

lemma Moves.idle (hm : Moves p q) (h : Idle p) : Idle q := by
  obtain ⟨_, _, rfl⟩ := hm
  exact h

lemma Moves.masked (hm : Moves p q) (l : ℕ) : q.masked l = p.masked l := by
  obtain ⟨_, _, rfl⟩ := hm
  rfl

def taken (p : Pics) (i : ℕ) : Pics :=
  { p with
    master :=
      { p.lead with
        request := setBit p.lead.request i false
        inService := setBit 0#8 i true } }

inductive Selected (p : Pics) : ℕ × Pics → Prop
  | own {i : ℕ} (hi : i < 8) (hne : i ≠ 2) (hwants : p.lead.wants i = true)
      (hfirst : ∀ j < i, p.lead.wants j = false) : Selected p (i, p.taken i)
  | second (hslave : p.slave.pending.isSome) (hmask : p.masked 2 = false)
      (hfirst : ∀ j < 2, p.lead.wants j = false) : Selected p (2, p.taken 2)
  | nothing (hasks : p.asks = false) : Selected p (7, { p with master := p.lead })

lemma select_selected (h : Cascaded p base base') (hidle : Idle p) : Selected p p.select := by
  have hmode : p.lead.mode.getLsbD 1 = false := by
    change p.master.mode.getLsbD 1 = false
    rw [h.masterMode]
    rfl
  have hlead : p.lead.inService = 0#8 := hidle.1
  cases hp : p.lead.pending with
  | none =>
    rw [select, Chip.select_none hp]
    exact .nothing (by rw [asks, hp]; rfl)
  | some i =>
    rw [select, Chip.select_idle hmode hlead hp]
    rw [Chip.pending_idle hlead, first_eq_some] at hp
    obtain ⟨hi, hwants, hfirst⟩ := hp
    by_cases h2 : i = 2
    · subst h2
      obtain ⟨hbit, hmask⟩ := Bool.and_eq_true_iff.mp hwants
      rw [lead, getLsbD_setBit _ (by decide), if_pos rfl] at hbit
      exact .second hbit ((Bool.not_eq_true' _).mp hmask) hfirst
    · exact .own hi h2 hwants hfirst

inductive Supplied (p : Pics) : ℕ → BitVec 8 × Pics → Prop
  | own {i : ℕ} (hne : i ≠ 2) : Supplied p i (p.master.vectorBase + BitVec.ofNat 8 i, p)
  | second {j : ℕ} (hj : j < 8) (hwants : p.slave.wants j = true)
      (hfirst : ∀ k < j, p.slave.wants k = false) :
      Supplied p 2 (p.slave.vectorBase + BitVec.ofNat 8 j,
        { p with
          slave :=
            { p.slave with
              request := setBit p.slave.request j false
              inService := setBit 0#8 j true } })
  | nothing (hslave : p.slave.pending = none) : Supplied p 2 (p.slave.vectorBase + 7#8, p)

lemma supply_supplied (h : Cascaded p base base') (hslave : p.slave.inService = 0#8) {i : ℕ}
    (hi : i < 8) : Supplied p i (p.supply i) := by
  have hmode : p.slave.mode.getLsbD 1 = false := by
    rw [h.slaveMode]
    rfl
  have hcascade : p.master.cascade.getLsbD i = decide (i = 2) := by
    rw [h.wiring]
    exact (by decide : ∀ i < 8, (4#8).getLsbD i = decide (i = 2)) i hi
  by_cases h2 : i = 2
  · subst h2
    have hid : (p.slave.cascade &&& 7#8).toNat = 2 := by
      rw [h.identity]
      rfl
    rw [supply, hcascade, if_pos (by decide), if_pos hid]
    cases hp : p.slave.pending with
    | none =>
      rw [Chip.select_none hp]
      exact .nothing hp
    | some j =>
      rw [Chip.select_idle hmode hslave hp]
      rw [Chip.pending_idle hslave, first_eq_some] at hp
      exact .second hp.1 hp.2.1 hp.2.2
  · rw [supply, hcascade, if_neg (by simpa using h2)]
    exact .own h2

lemma requested_taken (hi : i < 8) (hl : l < 16) :
    (p.taken i).requested l = (l != i && p.requested l) := by
  unfold requested
  split
  · by_cases h2 : l = 2
    · simp [h2]
    · have hlead : p.lead.request.getLsbD l = p.master.request.getLsbD l := by
        rw [lead, getLsbD_setBit _ (by decide), if_neg h2]
      change (l != 2 && (setBit p.lead.request i false).getLsbD l) = _
      rw [getLsbD_setBit _ hi, hlead]
      by_cases hli : l = i
      · simp [hli]
      · simp only [if_neg hli]
        simp [hli]
  · have hne : l ≠ i := by omega
    simp only [bne_iff_ne.mpr hne, Bool.true_and]
    rfl

lemma requested_lead (p : Pics) (l : ℕ) :
    ({ p with master := p.lead } : Pics).requested l = p.requested l := by
  unfold requested
  by_cases h2 : l = 2
  · simp [h2]
  · simp only [lead, getLsbD_setBit _ (show 2 < 8 by decide), if_neg h2]

lemma Selected.requested {r : ℕ × Pics} (h : Selected p r) (hl : l < 16) (hne : l ≠ 2) :
    (r.2.requested l = true → p.requested l = true) ∧
      (r.1 = l → l ≠ 7 → p.requested l = true ∧ r.2.requested l = false) := by
  cases h with
  | @own i hi hne2 hwants hfirst =>
    rw [requested_taken hi hl]
    refine ⟨fun hr => (Bool.and_eq_true_iff.mp hr).2, ?_⟩
    rintro (rfl : i = l) -
    have hbit := (Bool.and_eq_true_iff.mp hwants).1
    rw [lead, getLsbD_setBit _ (by decide), if_neg hne] at hbit
    refine ⟨?_, by simp⟩
    rw [Pics.requested, if_pos hi, hbit]
    simpa using hne
  | second hslave hmask hfirst =>
    rw [requested_taken (by decide) hl]
    exact ⟨fun hr => (Bool.and_eq_true_iff.mp hr).2, fun he => absurd he.symm hne⟩
  | nothing hasks =>
    rw [requested_lead]
    exact ⟨id, fun he h7 => absurd he.symm h7⟩

lemma requested_clear {j : ℕ} (hj : j < 8) (v : BitVec 8) (l : ℕ) :
    ({ p with
        slave := { p.slave with request := setBit p.slave.request j false, inService := v } } :
      Pics).requested l = (l != 8 + j && p.requested l) := by
  unfold requested
  split
  · have hne : l ≠ 8 + j := by omega
    simp [hne]
  · dsimp only
    rw [getLsbD_setBit _ hj]
    by_cases hl : l = 8 + j
    · simp [hl]
    · have hne : l - 8 ≠ j := by omega
      simp [hl, hne]

lemma Supplied.requested {r : BitVec 8 × Pics} (h : Supplied p i r) :
    r.2.requested l = true → p.requested l = true := by
  cases h with
  | own hne => exact id
  | @second j hj hwants hfirst =>
    rw [requested_clear hj]
    exact fun h => (Bool.and_eq_true_iff.mp h).2
  | nothing hslave => exact id

/-- Line `l` would interrupt if it were the only one. -/
def wants (p : Pics) (l : ℕ) : Bool :=
  p.requested l && !p.masked l && (l < 8 || !p.masked 2)

lemma lead_wants (hl : l < 8) (h : p.wants l = true) : p.lead.wants l = true := by
  simp only [wants, requested, masked, if_pos hl, Bool.and_eq_true] at h
  obtain ⟨⟨⟨hne, hbit⟩, hmask⟩, -⟩ := h
  have hbit' : p.lead.request.getLsbD l = true := by
    rw [lead, getLsbD_setBit _ (by decide), if_neg (by simpa using hne)]
    exact hbit
  exact Bool.and_eq_true_iff.mpr ⟨hbit', hmask⟩

lemma slave_wants (hl8 : 8 ≤ l) (h : p.wants l = true) : p.slave.wants (l - 8) = true := by
  simp only [wants, requested, masked, if_neg (Nat.not_lt.mpr hl8), Bool.and_eq_true] at h
  exact Bool.and_eq_true_iff.mpr h.1

lemma lead_wants_second (hidle : Idle p) (hl8 : 8 ≤ l) (hl : l < 16) (h : p.wants l = true) :
    p.lead.wants 2 = true := by
  have hslave := slave_wants hl8 h
  refine Bool.and_eq_true_iff.mpr ⟨?_, ?_⟩
  · rw [lead, getLsbD_setBit _ (by decide), if_pos rfl, Chip.pending_idle hidle.2,
      Option.isSome_iff_ne_none]
    intro hnone
    have hno := first_eq_none.mp hnone (l - 8) (by omega)
    rw [hslave] at hno
    cases hno
  · simp only [wants, Bool.and_eq_true, Bool.or_eq_true, decide_eq_true_eq] at h
    exact h.2.resolve_left (by omega)

lemma asks_of_wants (hidle : Idle p) (hl : l < 16) (h : p.wants l = true) : p.asks = true := by
  have hsome : ∃ i < 8, p.lead.wants i = true := by
    by_cases hl8 : l < 8
    · exact ⟨l, hl8, lead_wants hl8 h⟩
    · exact ⟨2, by decide, lead_wants_second hidle (Nat.not_lt.mp hl8) hl h⟩
  obtain ⟨i, hi, hwants⟩ := hsome
  have hidle' : p.lead.inService = 0#8 := hidle.1
  rw [asks, Chip.pending_idle hidle', Option.isSome_iff_ne_none]
  intro hnone
  have hno := first_eq_none.mp hnone i hi
  rw [hwants] at hno
  cases hno

lemma wants_lead (hl : l < 8) (hne : l ≠ 2) (h : p.lead.wants l = true) : p.wants l = true := by
  obtain ⟨hbit, hmask⟩ := Bool.and_eq_true_iff.mp h
  rw [lead, getLsbD_setBit _ (by decide), if_neg hne] at hbit
  have hrequested : p.requested l = true := by
    rw [requested, if_pos hl, hbit]
    simpa using hne
  have hmasked : p.masked l = false := by
    rw [masked, if_pos hl]
    exact (Bool.not_eq_true' _).mp hmask
  rw [wants, hrequested, hmasked, decide_eq_true hl]
  rfl

lemma wants_slave {j : ℕ} (hmask : p.masked 2 = false) (h : p.slave.wants j = true) :
    p.wants (8 + j) = true := by
  have hlt : ¬ 8 + j < 8 := by omega
  obtain ⟨hbit, hopen⟩ := Bool.and_eq_true_iff.mp h
  have hrequested : p.requested (8 + j) = true := by
    rw [requested, if_neg hlt, Nat.add_sub_cancel_left]
    exact hbit
  have hmasked : p.masked (8 + j) = false := by
    rw [masked, if_neg hlt, Nat.add_sub_cancel_left]
    exact (Bool.not_eq_true' _).mp hopen
  rw [wants, hrequested, hmasked, hmask, decide_eq_false hlt]
  rfl

/-- The lines in the order in which they are served. -/
def serviceOrder : List ℕ := [0, 1, 8, 9, 10, 11, 12, 13, 14, 15, 3, 4, 5, 6, 7]

lemma filter_find {xs : List ℕ} (hxs : xs.Nodup) {P : ℕ → Bool} {k : ℕ} (h : xs.find? P = some k) :
    xs.filter P = k :: xs.filter fun l => l != k && P l := by
  induction xs with
  | nil => cases h
  | cons x xs ih =>
    obtain ⟨hnot, hrest⟩ := List.nodup_cons.mp hxs
    cases hP : P x with
    | true =>
      rw [List.find?_cons_of_pos hP] at h
      obtain rfl := Option.some.inj h
      rw [List.filter_cons_of_pos hP, List.filter_cons_of_neg (by simp)]
      congr 1
      apply List.filter_congr
      intro y hy
      have hne : y ≠ x := fun he => hnot (he ▸ hy)
      rw [bne_iff_ne.mpr hne, Bool.true_and]
    | false =>
      rw [List.find?_cons_of_neg (by simp [hP])] at h
      rw [List.filter_cons_of_neg (by simp [hP]), List.filter_cons_of_neg (by simp [hP])]
      exact ih hrest h

lemma not_wants {i : ℕ} (hfirst : ∀ j < i, p.lead.wants j = false) (hi : i ≤ 8) (hl : l < i) :
    p.wants l = false := by
  apply Bool.eq_false_iff.mpr
  intro hw
  have hlead := lead_wants (by omega) hw
  rw [hfirst l hl] at hlead
  cases hlead

lemma find_own {i : ℕ} (hidle : Idle p) (hi : i < 8) (hne : i ≠ 2) (hwants : p.lead.wants i = true)
    (hfirst : ∀ j < i, p.lead.wants j = false) : serviceOrder.find? p.wants = some i := by
  have hi' := wants_lead hi hne hwants
  have hlow : ∀ l < i, p.wants l = false := fun l hl => not_wants hfirst hi.le hl
  have hhigh : 2 < i → ∀ l, 8 ≤ l → l < 16 → p.wants l = false := by
    intro h2 l hl8 hl
    apply Bool.eq_false_iff.mpr
    intro hw
    have hlead := lead_wants_second hidle hl8 hl hw
    rw [hfirst 2 h2] at hlead
    cases hlead
  interval_cases i
  · simp [serviceOrder, hi']
  · simp [serviceOrder, hi', hlow]
  · exact absurd rfl hne
  all_goals simp [serviceOrder, hi', hlow, hhigh]

lemma find_second {j : ℕ} (hmask : p.masked 2 = false) (hlead : ∀ j < 2, p.lead.wants j = false)
    (hj : j < 8) (hwants : p.slave.wants j = true) (hfirst : ∀ k < j, p.slave.wants k = false) :
    serviceOrder.find? p.wants = some (8 + j) := by
  have hj' := wants_slave hmask hwants
  have hlow : ∀ l < 2, p.wants l = false := fun l hl => not_wants hlead (by decide) hl
  have hbefore : ∀ l, 8 ≤ l → l < 8 + j → p.wants l = false := by
    intro l hl8 hl
    apply Bool.eq_false_iff.mpr
    intro hw
    have hslave := slave_wants hl8 hw
    rw [hfirst (l - 8) (by omega)] at hslave
    cases hslave
  interval_cases j
  all_goals simp [serviceOrder, hj', hlow, hbefore]

end Pics

end Veni.Lib
