import Veni.Drivers.KeyModifiers
import Veni.Drivers.KeyQueue

/-! The characters of key packets, `kernel/kb_keys.c`, and what a reader of the key queue makes of them. -/

namespace Veni.Drivers

open Veni.Lib.RingQueue Veni.Lib.Transition

/-- The number of a key in the enumeration of `kb_keys.h`. -/
def KeyCode.value (c : KeyCode) : ℕ := c.ctorIdx

def keycodeToAscii : List Char :=
  ['\x00', 'a', 'b', 'c', 'd', 'e', 'f', 'g', 'h', 'i', 'j',
    'k', 'l', 'm', 'n', 'o', 'p', 'q', 'r', 's', 't', 'u',
    'v', 'w', 'x', 'y', 'z', '1', '2', '3', '4', '5', '6',
    '7', '8', '9', '0', '-', '=', ' ', '[', ']', ';', '\'',
    ',', '.', '/', '\\', '\x60', '\n', '\x00', '\x00', '\x00', '\x00', '\x00', '\x00',
    '\x00', '\x00', '\x00', '\x00', '\x00', '\x00', '\x00', '\x00', '\x00', '\x00', '\x00', '\x00',
    '\x00', '\x00', '\x00', '\x00', '\x00', '\x00']

def keycodeToAsciiShift : List Char :=
  ['\x00', 'A', 'B', 'C', 'D', 'E', 'F', 'G', 'H', 'I', 'J',
    'K', 'L', 'M', 'N', 'O', 'P', 'Q', 'R', 'S', 'T', 'U',
    'V', 'W', 'X', 'Y', 'Z', '!', '@', '#', '$', '%', '^',
    '&', '*', '(', ')', '_', '+', ' ', '\x7b', '\x7d', ':', '\x22',
    '<', '>', '?', '|', '~', '\n', '\x00', '\x00', '\x00', '\x00', '\x00', '\x00',
    '\x00', '\x00', '\x00', '\x00', '\x00', '\x00', '\x00', '\x00', '\x00', '\x00', '\x00', '\x00',
    '\x00', '\x00', '\x00', '\x00', '\x00', '\x00']

def keycodeToAsciiCaps : List Char :=
  ['\x00', 'A', 'B', 'C', 'D', 'E', 'F', 'G', 'H', 'I', 'J',
    'K', 'L', 'M', 'N', 'O', 'P', 'Q', 'R', 'S', 'T', 'U',
    'V', 'W', 'X', 'Y', 'Z', '1', '2', '3', '4', '5', '6',
    '7', '8', '9', '0', '-', '=', ' ', '[', ']', ';', '\'',
    ',', '.', '/', '\\', '\x60', '\n', '\x00', '\x00', '\x00', '\x00', '\x00', '\x00',
    '\x00', '\x00', '\x00', '\x00', '\x00', '\x00', '\x00', '\x00', '\x00', '\x00', '\x00', '\x00',
    '\x00', '\x00', '\x00', '\x00', '\x00', '\x00']

def isLetter (c : KeyCode) : Bool := decide (KeyCode.a.value ≤ c.value ∧ c.value ≤ KeyCode.z.value)

/-- `none` is a read outside of the table. -/
def keyToAscii (pkt : KeyPacket) : Option Char :=
  if !pkt.pressed then some '\x00'
  else if isLetter pkt.keycode && (pkt.capslock ^^ pkt.shift) then keycodeToAsciiCaps[pkt.keycode.value]?
  else if pkt.shift then keycodeToAsciiShift[pkt.keycode.value]?
  else keycodeToAscii[pkt.keycode.value]?

def lowerCase (c : KeyCode) : Char := Char.ofNat ('a'.toNat + (c.value - KeyCode.a.value))

def upperCase (c : KeyCode) : Char := Char.ofNat ('A'.toNat + (c.value - KeyCode.a.value))

/-- What a packet should be read as. -/
structure Decoded (pkt : KeyPacket) : Prop where
  inside : keyToAscii pkt ≠ none
  release : pkt.pressed = false → keyToAscii pkt = some '\x00'
  letter : pkt.pressed = true → isLetter pkt.keycode = true →
    keyToAscii pkt = some (if pkt.capslock ^^ pkt.shift then upperCase pkt.keycode else lowerCase pkt.keycode)

/-- The scancode is accepted and is a press of F12, or of a letter with capslock and shift set. -/
def Misread (s : System) (sc : BitVec 8) : Prop :=
  (s.keyboard.bufferHead + 1) % bufferSize ≠ s.keyboard.bufferTail ∧ isBreak sc = false ∧
    (set1ScancodeToKeycode (keyOf sc) = .f12 ∨
      isLetter (set1ScancodeToKeycode (keyOf sc)) = true ∧ s.keyboard.capslock = true ∧
        s.keyboard.shift = true)

def Readable (s : System) : Event → Prop
  | .interrupt scs => ∀ before sc after, scs = before ++ sc :: after → ¬ Misread (before.foldl System.turn s) sc
  | _ => True

def Event.quiet : Event → Bool
  | .interrupt _ => false
  | _ => true

lemma letter_tables :
    ∀ n < 27, 0 < n → keycodeToAsciiCaps[n]? = some (Char.ofNat ('A'.toNat + (n - 1))) ∧
      keycodeToAsciiShift[n]? = some (Char.ofNat ('A'.toNat + (n - 1))) ∧
      keycodeToAscii[n]? = some (Char.ofNat ('a'.toNat + (n - 1))) := by
  decide

lemma letter_cases_ne : ∀ n < 26, Char.ofNat ('A'.toNat + n) ≠ Char.ofNat ('a'.toNat + n) := by decide

lemma value_lt {c : KeyCode} (h : c ≠ .f12) : c.value < 74 := by
  cases c <;> first | exact absurd rfl h | decide

lemma isLetter_bounds {c : KeyCode} (h : isLetter c = true) : 0 < c.value ∧ c.value < 27 := by
  have hb := of_decide_eq_true h
  have ha : KeyCode.a.value = 1 := rfl
  have hz : KeyCode.z.value = 26 := rfl
  omega

lemma keyToAscii_letter {pkt : KeyPacket} (hp : pkt.pressed = true) (hl : isLetter pkt.keycode = true) :
    keyToAscii pkt = some
      (if pkt.capslock || pkt.shift then upperCase pkt.keycode else lowerCase pkt.keycode) := by
  obtain ⟨h0, h27⟩ := isLetter_bounds hl
  obtain ⟨hcaps, hshift, hplain⟩ := letter_tables _ h27 h0
  simp only [keyToAscii, hp, hl, Bool.not_true, Bool.true_and]
  cases pkt.capslock with
  | false =>
    cases pkt.shift with
    | false => exact hplain
    | true => exact hcaps
  | true =>
    cases pkt.shift with
    | false => exact hcaps
    | true => exact hshift

lemma keyToAscii_isSome {pkt : KeyPacket} (h : pkt.keycode ≠ .f12) : keyToAscii pkt ≠ none := by
  have hlt := value_lt h
  simp only [keyToAscii]
  split
  · simp
  · have hsome : ∀ table : List Char, table.length = 74 → table[pkt.keycode.value]? ≠ none := by
      intro table ht
      simpa [ht] using hlt
    split
    · exact hsome _ rfl
    · split
      · exact hsome _ rfl
      · exact hsome _ rfl

lemma decoded_iff (pkt : KeyPacket) :
    Decoded pkt ↔
      ¬ (pkt.pressed = true ∧
        (pkt.keycode = .f12 ∨
          isLetter pkt.keycode = true ∧ pkt.capslock = true ∧ pkt.shift = true)) := by
  constructor
  · rintro h ⟨hp, h12 | ⟨hl, hc, hs⟩⟩
    · apply h.inside
      simp only [keyToAscii, hp, h12]
      cases pkt.shift <;> rfl
    · have hletter := h.letter hp hl
      rw [keyToAscii_letter hp hl, hc, hs] at hletter
      obtain ⟨h0, h27⟩ := isLetter_bounds hl
      exact letter_cases_ne (pkt.keycode.value - 1) (by omega) (Option.some.inj hletter)
  · intro h
    constructor
    · by_cases h12 : pkt.keycode = .f12
      · have hp : pkt.pressed = false := by
          cases hp : pkt.pressed with
          | false => rfl
          | true => exact absurd ⟨hp, .inl h12⟩ h
        simp [keyToAscii, hp]
      · exact keyToAscii_isSome h12
    · intro hp
      simp [keyToAscii, hp]
    · intro hp hl
      rw [keyToAscii_letter hp hl]
      cases hc : pkt.capslock with
      | false => rw [Bool.false_or, Bool.false_xor]
      | true =>
        cases hs : pkt.shift with
        | false => rfl
        | true => exact absurd ⟨hp, .inr ⟨hl, hc, hs⟩⟩ h

def Reader.rank : Reader → ℕ
  | .available => 6
  | .readkey => 5
  | .idle => 5
  | .getkeyWait => 6
  | .getkey => 5
  | .pop => 4
  | .popWait => 3
  | .popRead => 2
  | .popUpdate _ => 1

namespace System

lemma decoded_packet {s : System} {sc : BitVec 8}
    (hroom : (s.keyboard.bufferHead + 1) % bufferSize ≠ s.keyboard.bufferTail) :
    Decoded (s.keyboard.packet sc) ↔ ¬ Misread s sc := by
  rw [decoded_iff, Misread]
  simp [Keyboard.packet, hroom]

lemma misread_ordinary {s : System} {sc : BitVec 8} (h : Misread s sc) : roleOf sc = .ordinary := by
  obtain ⟨-, -, h12 | ⟨hl, -⟩⟩ := h
  · rw [roleOf, keyRole, h12]
    rfl
  · rw [roleOf, keyRole]
    revert hl
    cases set1ScancodeToKeycode (keyOf sc) <;> decide

lemma turn_accepted (s : System) (sc : BitVec 8) :
    (∀ pkt ∈ (s.turn sc).accepted, Decoded pkt) ↔ (∀ pkt ∈ s.accepted, Decoded pkt) ∧ ¬ Misread s sc := by
  rw [turn, Keyboard.decode_role]
  by_cases hr : roleOf sc = .ordinary
  · simp only [hr]
    by_cases hroom : (s.keyboard.bufferHead + 1) % bufferSize ≠ s.keyboard.bufferTail
    · rw [if_pos hroom, ← decoded_packet hroom]
      simp only [List.forall_mem_append, List.forall_mem_singleton]
    · rw [if_neg hroom, and_iff_left fun h => hroom h.1]
  · rw [and_iff_left fun h => hr (misread_ordinary h)]
    cases h : roleOf sc with
    | ordinary => exact absurd h hr
    | _ => rfl

lemma interrupt_accepted (s : System) (scs : List (BitVec 8)) :
    (∀ pkt ∈ (scs.foldl turn s).accepted, Decoded pkt) ↔
      (∀ pkt ∈ s.accepted, Decoded pkt) ∧ Readable s (.interrupt scs) := by
  induction scs generalizing s with
  | nil => simp [Readable]
  | cons sc scs ih =>
    rw [List.foldl_cons, ih, turn_accepted, and_assoc]
    apply and_congr_right
    intro _
    constructor
    · rintro ⟨hsc, hrest⟩ before x after he
      cases before with
      | nil =>
        cases he
        exact hsc
      | cons y before =>
        obtain ⟨rfl, rfl⟩ := List.cons.inj he
        exact hrest before x after rfl
    · intro h
      exact ⟨h [] sc scs rfl, fun before x after he => h (sc :: before) x after (by rw [he]; rfl)⟩

lemma readerStep_accepted {s t : System} (h : s.readerStep = some t) : t.accepted = s.accepted := by
  unfold readerStep at h
  cases hr : s.reader <;> rw [hr] at h <;> cases h <;> rfl

lemma quiet_accepted {s t : System} {e : Event} (hs : Step s e t) (hq : e.quiet = true) :
    t.accepted = s.accepted := by
  cases e with
  | interrupt scs => cases hq
  | call c =>
    simp only [Step, next] at hs
    split at hs
    · cases hs
      rfl
    · cases hs
  | read => exact readerStep_accepted hs

lemma quiet_run_accepted {s t : System} {es : List Event} (h : Run Step s es t)
    (hq : ∀ e ∈ es, e.quiet = true) : t.accepted = s.accepted := by
  induction h with
  | nil => rfl
  | cons hs _ ih =>
    rw [ih fun e he => hq e (List.mem_cons_of_mem _ he)]
    exact quiet_accepted hs (hq _ List.mem_cons_self)

lemma step_decoded {s t : System} {e : Event} (hs : Step s e t) :
    (∀ pkt ∈ t.accepted, Decoded pkt) ↔ (∀ pkt ∈ s.accepted, Decoded pkt) ∧ Readable s e := by
  cases e with
  | interrupt scs =>
    cases hs
    exact interrupt_accepted s scs
  | call c =>
    rw [quiet_accepted hs rfl]
    exact (and_iff_left trivial).symm
  | read =>
    rw [quiet_accepted hs rfl]
    exact (and_iff_left trivial).symm

lemma run_decoded {s t : System} {es : List Event} (h : Run Step s es t) :
    (∀ pkt ∈ t.accepted, Decoded pkt) ↔
      (∀ pkt ∈ s.accepted, Decoded pkt) ∧ Along Step (fun s e _ => Readable s e) s es := by
  induction h with
  | nil => rw [Along, and_iff_left trivial]
  | @cons s t u e es hs _ ih =>
    have hall : Along Step (fun s e _ => Readable s e) s (e :: es) ↔
        Readable s e ∧ Along Step (fun s e _ => Readable s e) t es := by
      constructor
      · exact fun ha => ha t hs
      · intro ha t' hs'
        cases Option.some.inj (hs.symm.trans hs')
        exact ha
    rw [ih, step_decoded hs, hall, and_assoc]

lemma Inv.bufferEmpty {s : System} (h : Inv s) (hne : s.keyboard.pending ≠ []) :
    s.keyboard.bufferEmpty = false := by
  have hhead : s.keyboard.bufferHead ≠ s.keyboard.bufferTail := by
    intro heq
    exact hne ((queued_eq_nil h.head_lt h.tail_lt).mpr heq)
  simpa [Keyboard.bufferEmpty] using hhead

lemma Inv.update_pending {s t : System} (h : Inv s) (ht : Inv t) {pkt : KeyPacket}
    (ha : t.accepted = s.accepted) (hr : t.returned = s.returned ++ [pkt]) :
    s.keyboard.pending.length = t.keyboard.pending.length + 1 := by
  have hs := congrArg List.length h.ledger
  have ht := congrArg List.length ht.ledger
  rw [List.length_append] at hs ht
  rw [ha, hr, List.length_append, List.length_singleton] at ht
  omega

def remaining (s : System) : ℕ := 8 * s.keyboard.pending.length + s.reader.rank

lemma quiet_step {s : System} (h : Inv s) (hne : s.keyboard.pending ≠ []) :
    ∃ e t, e.quiet = true ∧ Step s e t ∧ t.remaining < s.remaining := by
  have he := h.bufferEmpty hne
  cases hr : s.reader with
  | idle =>
    refine ⟨.call .bufferPop, { s with reader := .pop }, rfl, ?_, ?_⟩
    · rw [Step, next, if_pos hr]
      rfl
    · simp [remaining, hr, Reader.rank]
  | popUpdate pkt =>
    have hs : s.readerStep = some
        { s with
          keyboard := { s.keyboard with bufferTail := (s.keyboard.bufferTail + 1) % bufferSize }
          reader := .idle
          returned := s.returned ++ [pkt]
          updates := s.updates + 1 } := by
      simp only [readerStep, hr]
    have hp := h.update_pending (h.read hs) rfl rfl
    refine ⟨.read, _, rfl, hs, ?_⟩
    simp only [remaining, hr, Reader.rank] at hp ⊢
    omega
  | _ =>
    refine ⟨.read, _, rfl, by simp only [Step, next, readerStep, hr]; rfl, ?_⟩
    simp [remaining, hr, he, Reader.rank]

lemma drain {s : System} (h : Inv s) :
    ∃ es t, Run Step s es t ∧ (∀ e ∈ es, e.quiet = true) ∧ t.returned = s.accepted := by
  induction hn : s.remaining using Nat.strongRecOn generalizing s with
  | _ n ih =>
    by_cases hp : s.keyboard.pending = []
    · refine ⟨[], s, .nil s, by simp, ?_⟩
      rw [h.ledger, hp, List.append_nil]
    · obtain ⟨e, t, hq, hs, hlt⟩ := quiet_step h hp
      obtain ⟨es, u, hrun, hes, hu⟩ := ih t.remaining (hn ▸ hlt) (h.step hs) rfl
      refine ⟨e :: es, u, .cons hs hrun, ?_, hu.trans (quiet_accepted hs hq)⟩
      intro x hx
      rcases List.mem_cons.mp hx with rfl | hx
      · exact hq
      · exact hes x hx

/-- Every packet that is taken from the queue after a run is read as it should be if and only if the
run's interrupts accept no press of F12 and no press of a letter with capslock and shift set. -/
theorem keys_decoded {es : List Event} {s : System} (h : Run Step boot es s) :
    (∀ fs t, Run Step s fs t → (∀ e ∈ fs, e.quiet = true) → ∀ pkt ∈ t.returned, Decoded pkt) ↔
      Along Step (fun s e _ => Readable s e) boot es := by
  have hinv : Inv s := h.invariant (fun _ _ _ hs hstep => hs.step hstep) inv_boot
  have hrun := run_decoded h
  rw [and_iff_right (by simp [boot])] at hrun
  rw [← hrun]
  constructor
  · intro hall
    obtain ⟨fs, t, hr, hq, ht⟩ := drain hinv
    rw [← ht]
    exact hall fs t hr hq
  · intro hall fs t hr hq pkt hpkt
    have ht : Inv t := hr.invariant (fun _ _ _ hs hstep => hs.step hstep) hinv
    apply hall
    rw [← quiet_run_accepted hr hq, ht.ledger]
    exact List.mem_append_left _ hpkt

theorem keys_decoded_press :
    Along Step (fun s e _ => Readable s e) boot [.interrupt [0x1E#8], .call .bufferPop] := by
  have hrun : Run Step boot [.interrupt [0x1E#8], .call .bufferPop] _ := .cons rfl (.cons rfl (.nil _))
  apply (keys_decoded hrun).mp
  intro fs t hr hq pkt hpkt
  have ht : Inv t := hr.invariant (fun _ _ _ hs hstep => hs.step hstep)
    (hrun.invariant (fun _ _ _ hs hstep => hs.step hstep) inv_boot)
  have hacc := (quiet_run_accepted hr hq).symm.trans ht.ledger
  have hmem : pkt ∈ t.returned ++ t.keyboard.pending := List.mem_append_left _ hpkt
  rw [← hacc] at hmem
  cases List.mem_singleton.mp hmem
  rw [decoded_iff]
  decide

/-- Capslock on, shift held and `a` gives the upper-case letter, and F12 reads behind the tables. -/
theorem keys_decoded_caps :
    ∃ s t a f, Run Step boot [.interrupt [0x3B#8, 0xBB#8, 0x2A#8, 0x1E#8], .call .bufferPop, .read, .read,
        .read, .read] s ∧ s.returned = [a] ∧ keyToAscii a = some 'A' ∧ ¬ Decoded a ∧
      Run Step boot [.interrupt [0x59#8], .call .bufferPop, .read, .read, .read, .read] t ∧
      t.returned = [f] ∧ keyToAscii f = none ∧ ¬ Decoded f := by
  refine ⟨_, _, _, _, .cons rfl (.cons rfl (.cons rfl (.cons rfl (.cons rfl (.cons rfl (.nil _)))))), rfl,
    by decide, ?_, .cons rfl (.cons rfl (.cons rfl (.cons rfl (.cons rfl (.cons rfl (.nil _)))))), rfl,
    by decide, fun h => h.inside (by decide)⟩
  rw [decoded_iff]
  decide

end System

end Veni.Drivers
